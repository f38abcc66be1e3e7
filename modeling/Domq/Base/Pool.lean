import Domq.Lib.Machine
import Mathlib.Data.List.Nodup
import Mathlib.Data.UInt
import Mathlib.Tactic.Common

/-!
# Object pools

`ObjectPoolAllocator` and `ObjectPoolCallBackAllocator` (`base/util/allocator.h`). A `size_t` is a
`UInt64`, with its wrapping sum. Memory does not run out and the mutex can be locked.

* The objects of a pool are numbered as they are constructed.
* `Create` takes the front of the list of free objects without looking at it again after `inc`,
  which succeeds with an increment of `0` as well: `Created.emptyFront` is the front of an empty
  list.
* The callback allocator's `Create` calls a method of whatever `Create` returned, so that its `NULL`
  is dereferenced.

A `PoolState` is a pool with the objects that are checked out and a record of every `Create`.

Results:
* `safe_step_iff`: from a state that is in order, a call leads to one exactly if it `Fits`.
* `safe_of_fits`: the pool is safe in every state of every run whose calls all fit.
-/

namespace Domq.Base

open Domq.Lib Machine

/-! ## `ObjectPoolAllocator` -/

structure ObjectPoolAllocator where
  freeObject : List Nat
  currentNum : UInt64
  maxNum : UInt64
  onceIncNum : UInt64
  /-- the number of objects constructed so far, which is the number of the next one -/
  constructed : Nat
  deriving DecidableEq

/-- What `Create` ends with. -/
inductive Created
  | null
  | object (o : Nat)
  | emptyFront
  deriving DecidableEq

namespace ObjectPoolAllocator

/-- The increment of `inc`, which does not lead beyond the maximum. -/
def clamp (iIncNum : UInt64) (p : ObjectPoolAllocator) : UInt64 :=
  if p.maxNum < p.currentNum + iIncNum then p.maxNum - p.currentNum else iIncNum

/-- `inc`. -/
def inc (iIncNum : UInt64) (p : ObjectPoolAllocator) : Int × ObjectPoolAllocator :=
  if p.maxNum ≤ p.currentNum then (-1, p)
  else (0, { p with
    freeObject := p.freeObject ++ List.range' p.constructed (p.clamp iIncNum).toNat
    currentNum := p.currentNum + p.clamp iIncNum
    constructed := p.constructed + (p.clamp iIncNum).toNat })

/-- The constructor. -/
def new (iInitNum iMaxNum iIncNum : UInt64) : ObjectPoolAllocator :=
  let p : ObjectPoolAllocator :=
    if iMaxNum < iInitNum then ⟨[], 0, iInitNum, 0, 0⟩ else ⟨[], 0, iMaxNum, iIncNum, 0⟩
  (p.inc iInitNum).2

/-- `SetMaxNum`. -/
def setMaxNum (iMaxNum : UInt64) (p : ObjectPoolAllocator) : ObjectPoolAllocator :=
  if iMaxNum ≤ p.currentNum then { p with maxNum := p.currentNum } else { p with maxNum := iMaxNum }

/-- `SetIncNum`. -/
def setIncNum (iIncNum : UInt64) (p : ObjectPoolAllocator) : ObjectPoolAllocator :=
  { p with onceIncNum := iIncNum }

/-- `*(_freeObject.begin())` and `pop_front`. -/
def takeFront (p : ObjectPoolAllocator) : Created × ObjectPoolAllocator :=
  match p.freeObject with
  | [] => (.emptyFront, p)
  | o :: rest => (.object o, { p with freeObject := rest })

/-- `Create`. -/
def create (p : ObjectPoolAllocator) : Created × ObjectPoolAllocator :=
  if p.freeObject = [] then
    if (p.inc p.onceIncNum).1 ≠ 0 then (.null, (p.inc p.onceIncNum).2)
    else (p.inc p.onceIncNum).2.takeFront
  else p.takeFront

/-- `Destroy` of an object. -/
def destroy (o : Nat) (p : ObjectPoolAllocator) : ObjectPoolAllocator :=
  { p with freeObject := o :: p.freeObject }

end ObjectPoolAllocator

/-! ## Runs -/

/-- One `Create`: of which allocator, what there was before it, and how it ended. -/
structure CreateRecord where
  callBack : Bool
  pool : ObjectPoolAllocator
  out : List Nat
  created : Created

/-- A pool, the objects checked out and the calls of `Create` so far. -/
structure PoolState where
  pool : ObjectPoolAllocator
  out : List Nat
  log : List CreateRecord

/-- The calls; `callBack` is set for those of `ObjectPoolCallBackAllocator::Create`. -/
inductive PoolCall
  | create (callBack : Bool)
  | destroy (o : Nat)
  | setMaxNum (iMaxNum : UInt64)
  | setIncNum (iIncNum : UInt64)

/-- The objects `Create` checks out. -/
def Created.objects : Created → List Nat
  | .object o => [o]
  | _ => []

namespace PoolState

/-- A new pool. -/
def start (iInitNum iMaxNum iIncNum : UInt64) : PoolState := ⟨.new iInitNum iMaxNum iIncNum, [], []⟩

/-- A call; only an object that is checked out is destroyed. -/
def step (s : PoolState) : PoolCall → Option PoolState
  | .create callBack => some {
      pool := s.pool.create.2
      out := s.pool.create.1.objects ++ s.out
      log := s.log ++ [⟨callBack, s.pool, s.out, s.pool.create.1⟩] }
  | .destroy o =>
    if o ∈ s.out then some { s with pool := s.pool.destroy o, out := s.out.erase o } else none
  | .setMaxNum iMaxNum => some { s with pool := s.pool.setMaxNum iMaxNum }
  | .setIncNum iIncNum => some { s with pool := s.pool.setIncNum iIncNum }

end PoolState

/-- A `Create` as it should be: no front of an empty list is taken; `NULL` is returned, and not
touched, only if no object is free and the maximum is reached; an object that is returned was free,
or new, and not checked out. -/
structure CreateRecord.Right (r : CreateRecord) : Prop where
  front : r.created ≠ .emptyFront
  null : r.created = .null → r.pool.freeObject = [] ∧ r.pool.currentNum = r.pool.maxNum
  untouched : r.created = .null → r.callBack = false
  object : ∀ o, r.created = .object o → o ∉ r.out ∧
    (o ∈ r.pool.freeObject ∨ r.pool.freeObject = [] ∧ r.pool.constructed ≤ o)

/-- The pool is in order, and was at every `Create`. -/
structure PoolState.Safe (s : PoolState) : Prop where
  nodup : (s.pool.freeObject ++ s.out).Nodup
  count : (s.pool.freeObject ++ s.out).length = s.pool.currentNum.toNat
  current_le : s.pool.currentNum ≤ s.pool.maxNum
  created : ∀ r ∈ s.log, r.Right

/-- When a call does what it should: a pool that has to grow has an increment, one that does not
make the number of objects wrap; and the callback allocator's pool is not exhausted. -/
def PoolState.Fits (s : PoolState) : PoolCall → Prop
  | .create callBack => s.pool.freeObject = [] →
    (s.pool.currentNum < s.pool.maxNum → 0 < s.pool.onceIncNum ∧
      s.pool.currentNum.toNat + s.pool.onceIncNum.toNat < 2 ^ 64) ∧
    (callBack = true → s.pool.currentNum < s.pool.maxNum)
  | _ => True

instance (s : PoolState) (e : PoolCall) : Decidable (s.Fits e) :=
  match e with
  | .create _ => inferInstanceAs (Decidable (_ → _))
  | .destroy _ => inferInstanceAs (Decidable True)
  | .setMaxNum _ => inferInstanceAs (Decidable True)
  | .setIncNum _ => inferInstanceAs (Decidable True)

/-! ## Growing -/

namespace ObjectPoolAllocator

variable {p : ObjectPoolAllocator} {n : UInt64}

theorem inc_full (h : p.maxNum ≤ p.currentNum) : p.inc n = (-1, p) := if_pos h

theorem inc_grows (h : p.currentNum < p.maxNum) : p.inc n = (0, { p with
    freeObject := p.freeObject ++ List.range' p.constructed (p.clamp n).toNat
    currentNum := p.currentNum + p.clamp n
    constructed := p.constructed + (p.clamp n).toNat }) :=
  if_neg (UInt64.not_le.mpr h)

/-- Without a wrap, the increment is cut down to what is missing. -/
theorem toNat_clamp (h : p.currentNum ≤ p.maxNum) (hw : p.currentNum.toNat + n.toNat < 2 ^ 64) :
    (p.clamp n).toNat = min n.toNat (p.maxNum.toNat - p.currentNum.toNat) := by
  unfold clamp
  have hle := UInt64.le_iff_toNat_le.mp h
  have hsum : (p.currentNum + n).toNat = p.currentNum.toNat + n.toNat := by
    rw [UInt64.toNat_add, Nat.mod_eq_of_lt hw]
  by_cases hlt : p.maxNum < p.currentNum + n
  · rw [if_pos hlt, UInt64.toNat_sub_of_le _ _ h]
    rw [UInt64.lt_iff_toNat_lt, hsum] at hlt
    omega
  · rw [if_neg hlt]
    rw [UInt64.lt_iff_toNat_lt, hsum] at hlt
    omega

/-- With a wrap it is not. -/
theorem clamp_of_wrap (h : p.currentNum < p.maxNum)
    (hw : 2 ^ 64 ≤ p.currentNum.toNat + n.toNat) : p.clamp n = n := by
  have hlt := UInt64.lt_iff_toNat_lt.mp h
  have hn := n.toNat_lt
  have hc := p.currentNum.toNat_lt
  apply if_neg
  rw [UInt64.lt_iff_toNat_lt, UInt64.toNat_add]
  omega

/-- **What `Create` does.** -/
theorem create_cases (p : ObjectPoolAllocator) :
    (∃ o rest, p.freeObject = o :: rest ∧
      p.create = (.object o, { p with freeObject := rest })) ∨
    (p.freeObject = [] ∧ p.maxNum ≤ p.currentNum ∧ p.create = (.null, p)) ∨
    (p.freeObject = [] ∧ p.currentNum < p.maxNum ∧ (p.clamp p.onceIncNum).toNat = 0 ∧
      p.create.1 = .emptyFront) ∨
    (∃ k, p.freeObject = [] ∧ p.currentNum < p.maxNum ∧ (p.clamp p.onceIncNum).toNat = k + 1 ∧
      p.create = (.object p.constructed, { p with
        freeObject := List.range' (p.constructed + 1) k
        currentNum := p.currentNum + p.clamp p.onceIncNum
        constructed := p.constructed + (k + 1) })) := by
  rcases hfree : p.freeObject with - | ⟨o, rest⟩
  · rcases UInt64.le_or_lt p.maxNum p.currentNum with hfull | hlt
    · refine Or.inr (Or.inl ⟨rfl, hfull, ?_⟩)
      unfold create
      rw [if_pos hfree, inc_full hfull]
      rfl
    · rcases hk : (p.clamp p.onceIncNum).toNat with - | k
      · refine Or.inr (Or.inr (Or.inl ⟨rfl, hlt, rfl, ?_⟩))
        unfold create
        rw [if_pos hfree, inc_grows hlt, hk, hfree]
        rfl
      · refine Or.inr (Or.inr (Or.inr ⟨k, rfl, hlt, rfl, ?_⟩))
        unfold create
        rw [if_pos hfree, inc_grows hlt, hk, hfree]
        rfl
  · refine Or.inl ⟨o, rest, rfl, ?_⟩
    unfold create takeFront
    rw [if_neg (by simp [hfree]), hfree]

end ObjectPoolAllocator

/-! ## One call -/

namespace PoolState

open ObjectPoolAllocator

variable {s s' : PoolState} {e : PoolCall}

/-- A safe state, in which the objects have numbers that were given. -/
structure Inv (s : PoolState) : Prop extends s.Safe where
  numbered : ∀ o ∈ s.pool.freeObject ++ s.out, o < s.pool.constructed

theorem right_append {log : List CreateRecord} {r : CreateRecord} (hlog : ∀ r ∈ log, r.Right)
    (hr : r.Right) : ∀ r' ∈ log ++ [r], r'.Right :=
  List.forall_mem_append.mpr ⟨hlog, List.forall_mem_singleton.mpr hr⟩

/-- `Create` of a pool with a free object. -/
theorem Inv.create_free (h : s.Inv) {o : Nat} {rest : List Nat} (callBack : Bool)
    (hfree : s.pool.freeObject = o :: rest) :
    Inv ⟨{ s.pool with freeObject := rest }, o :: s.out,
      s.log ++ [⟨callBack, s.pool, s.out, .object o⟩]⟩ := by
  have hnodup := h.nodup
  have hcount := h.count
  have hnum := h.numbered
  rw [hfree] at hnodup hcount hnum
  have hperm : (rest ++ o :: s.out).Perm (o :: rest ++ s.out) := List.perm_middle
  refine ⟨⟨hperm.nodup_iff.mpr hnodup, ?_, h.current_le, right_append h.created ?_⟩, ?_⟩
  · rw [hperm.length_eq]
    exact hcount
  · refine ⟨by simp, by simp, by simp, ?_⟩
    rintro o' ho'
    obtain rfl : o = o' := by simpa using ho'
    refine ⟨fun hout => ?_, Or.inl (by simp [hfree])⟩
    rw [List.cons_append, List.nodup_cons] at hnodup
    exact hnodup.1 (List.mem_append_right rest hout)
  · exact fun o' ho' => hnum o' (hperm.mem_iff.mp ho')

/-- `Create` of an exhausted pool. -/
theorem Inv.create_full (h : s.Inv) {callBack : Bool} (hfree : s.pool.freeObject = [])
    (hfull : s.pool.maxNum ≤ s.pool.currentNum) (hcall : callBack = false) :
    Inv ⟨s.pool, s.out, s.log ++ [⟨callBack, s.pool, s.out, .null⟩]⟩ := by
  refine ⟨⟨h.nodup, h.count, h.current_le, right_append h.created ?_⟩, h.numbered⟩
  exact ⟨by simp, fun _ => ⟨hfree, UInt64.le_antisymm h.current_le hfull⟩, fun _ => hcall, by simp⟩

/-- `Create` of a pool that grows. -/
theorem Inv.create_grown (h : s.Inv) {k : Nat} (callBack : Bool) (hfree : s.pool.freeObject = [])
    (hlt : s.pool.currentNum < s.pool.maxNum)
    (hw : s.pool.currentNum.toNat + s.pool.onceIncNum.toNat < 2 ^ 64)
    (hk : (s.pool.clamp s.pool.onceIncNum).toNat = k + 1) :
    Inv ⟨{ s.pool with
        freeObject := List.range' (s.pool.constructed + 1) k
        currentNum := s.pool.currentNum + s.pool.clamp s.pool.onceIncNum
        constructed := s.pool.constructed + (k + 1) }, s.pool.constructed :: s.out,
      s.log ++ [⟨callBack, s.pool, s.out, .object s.pool.constructed⟩]⟩ := by
  have hnodup := h.nodup
  have hcount := h.count
  have hnum := h.numbered
  rw [hfree, List.nil_append] at hnodup hcount hnum
  have hclamp := toNat_clamp (UInt64.le_of_lt hlt) hw
  have hltN := UInt64.lt_iff_toNat_lt.mp hlt
  have hsum : (s.pool.currentNum + s.pool.clamp s.pool.onceIncNum).toNat =
      s.pool.currentNum.toNat + (k + 1) := by
    rw [UInt64.toNat_add, hk, Nat.mod_eq_of_lt (by omega)]
  -- the new objects are those from `constructed` on, the one taken out first
  have hperm : (List.range' (s.pool.constructed + 1) k ++ s.pool.constructed :: s.out).Perm
      (List.range' s.pool.constructed (k + 1) ++ s.out) := by
    rw [List.range'_succ]
    exact List.perm_middle
  refine ⟨⟨hperm.nodup_iff.mpr ?_, ?_, ?_, right_append h.created ?_⟩, ?_⟩
  · refine List.Nodup.append List.nodup_range' hnodup ?_
    intro o ho hout
    have := (List.mem_range'_1.mp ho).1
    have := hnum o hout
    omega
  · rw [hperm.length_eq, List.length_append, List.length_range', hsum, hcount]
    omega
  · rw [UInt64.le_iff_toNat_le]
    simp only [hsum]
    omega
  · refine ⟨by simp, by simp, by simp, ?_⟩
    intro o ho
    obtain rfl : s.pool.constructed = o := by simpa using ho
    exact ⟨fun hout => Nat.lt_irrefl _ (hnum _ hout), Or.inr ⟨hfree, Nat.le_refl _⟩⟩
  · intro o ho
    rcases List.mem_append.mp (hperm.mem_iff.mp ho) with ho | ho
    · exact (List.mem_range'_1.mp ho).2
    · exact Nat.lt_add_right _ (hnum o ho)

/-- `Destroy` of an object that is checked out. -/
theorem Inv.destroy (h : s.Inv) {o : Nat} (ho : o ∈ s.out) :
    Inv { s with pool := s.pool.destroy o, out := s.out.erase o } := by
  have hperm : (o :: s.pool.freeObject ++ s.out.erase o).Perm (s.pool.freeObject ++ s.out) :=
    List.perm_middle.symm.trans ((List.perm_cons_erase ho).symm.append_left _)
  refine ⟨⟨hperm.nodup_iff.mpr h.nodup, ?_, h.current_le, h.created⟩, ?_⟩
  · rw [ObjectPoolAllocator.destroy, hperm.length_eq]
    exact h.count
  · exact fun o' ho' => h.numbered o' (hperm.mem_iff.mp ho')

theorem Inv.setMaxNum (h : s.Inv) (iMaxNum : UInt64) :
    Inv { s with pool := s.pool.setMaxNum iMaxNum } := by
  unfold ObjectPoolAllocator.setMaxNum
  split
  · exact ⟨⟨h.nodup, h.count, UInt64.le_refl _, h.created⟩, h.numbered⟩
  · rename_i hlt
    exact ⟨⟨h.nodup, h.count, UInt64.le_of_lt (UInt64.not_le.mp hlt), h.created⟩, h.numbered⟩

/-- **One call that fits.** -/
theorem Inv.step (h : s.Inv) (hfits : s.Fits e) (hs : s.step e = some s') : s'.Inv := by
  rcases e with callBack | o | iMaxNum | iIncNum
  · simp only [PoolState.step, Option.some.injEq] at hs
    subst hs
    rcases create_cases s.pool with ⟨o, rest, hfree, hc⟩ | ⟨hfree, hfull, hc⟩ |
      ⟨hfree, hlt, hzero, -⟩ | ⟨k, hfree, hlt, hk, hc⟩
    · rw [hc]
      exact h.create_free callBack hfree
    · rw [hc]
      refine h.create_full hfree hfull ?_
      rw [← Bool.not_eq_true]
      intro hcall
      exact UInt64.not_lt.mpr hfull ((hfits hfree).2 hcall)
    · obtain ⟨hpos, hw⟩ := (hfits hfree).1 hlt
      have hclamp := toNat_clamp (UInt64.le_of_lt hlt) hw
      have hposN := UInt64.lt_iff_toNat_lt.mp hpos
      have hltN := UInt64.lt_iff_toNat_lt.mp hlt
      rw [UInt64.toNat_zero] at hposN
      omega
    · rw [hc]
      exact h.create_grown callBack hfree hlt ((hfits hfree).1 hlt).2 hk
  · simp only [PoolState.step] at hs
    split at hs
    · rename_i ho
      simp only [Option.some.injEq] at hs
      subst hs
      exact h.destroy ho
    · simp at hs
  · simp only [PoolState.step, Option.some.injEq] at hs
    subst hs
    exact h.setMaxNum iMaxNum
  · simp only [PoolState.step, Option.some.injEq] at hs
    subst hs
    exact ⟨⟨h.nodup, h.count, h.current_le, h.created⟩, h.numbered⟩

/-- A call after which the pool is in order was one that fits. -/
theorem Inv.fits_of_safe (h : s.Inv) (hs : s.step e = some s') (hsafe : s'.Safe) : s.Fits e := by
  rcases e with callBack | o | iMaxNum | iIncNum
  · simp only [PoolState.step, Option.some.injEq] at hs
    subst hs
    have hright : CreateRecord.Right ⟨callBack, s.pool, s.out, s.pool.create.1⟩ :=
      hsafe.created _ (List.mem_append_right _ List.mem_cons_self)
    intro hfree
    rcases create_cases s.pool with ⟨o, rest, hfree', -⟩ | ⟨-, hfull, hc⟩ | ⟨-, -, -, hc⟩ |
      ⟨k, -, hlt, hk, hc⟩
    · rw [hfree] at hfree'
      simp at hfree'
    · -- nothing was returned, so that the call was not one of the callback allocator
      refine ⟨fun hlt => absurd hlt (UInt64.not_lt.mpr hfull), fun hcall => ?_⟩
      have huntouched := hright.untouched (by rw [hc])
      rw [hcall] at huntouched
      simp at huntouched
    · exact absurd hc hright.front
    · refine ⟨fun _ => ?_, fun _ => hlt⟩
      have hw : s.pool.currentNum.toNat + s.pool.onceIncNum.toNat < 2 ^ 64 := by
        -- all objects there were are out, and `onceIncNum` more do not fit into the counter
        by_contra hwrap
        have hclamp := clamp_of_wrap hlt (Nat.not_lt.mp hwrap)
        have hbefore := h.count
        have hafter := hsafe.count
        rw [hfree, List.nil_append] at hbefore
        simp only [hc, Created.objects, List.length_append, List.length_range', List.length_cons,
          List.length_nil] at hafter
        have := (s.pool.currentNum + s.pool.clamp s.pool.onceIncNum).toNat_lt
        rw [hclamp] at hk
        omega
      refine ⟨?_, hw⟩
      have hclamp := toNat_clamp (UInt64.le_of_lt hlt) hw
      rw [UInt64.lt_iff_toNat_lt, UInt64.toNat_zero]
      omega
  · trivial
  · trivial
  · trivial

/-- **When one call is safe.** -/
theorem safe_step_iff (h : s.Inv) (hs : s.step e = some s') : s'.Safe ↔ s.Fits e :=
  ⟨h.fits_of_safe hs, fun hfits => (h.step hfits hs).toSafe⟩

/-! ## All calls -/

theorem inv_start (iInitNum iMaxNum iIncNum : UInt64) : (start iInitNum iMaxNum iIncNum).Inv := by
  -- an empty pool, before its first growth
  have hnew : ∀ maxNum onceIncNum : UInt64,
      Inv ⟨(inc iInitNum ⟨[], 0, maxNum, onceIncNum, 0⟩).2, [], []⟩ := by
    intro maxNum onceIncNum
    rcases UInt64.le_or_lt maxNum 0 with hfull | hlt
    · rw [inc_full hfull]
      exact ⟨⟨by simp, by simp, UInt64.zero_le, by simp⟩, by simp⟩
    · rw [inc_grows hlt]
      have hclamp := toNat_clamp (p := ⟨[], 0, maxNum, onceIncNum, 0⟩) (n := iInitNum)
        UInt64.zero_le (by simpa using iInitNum.toNat_lt)
      refine ⟨⟨?_, ?_, ?_, by simp⟩, ?_⟩
      · simpa using List.nodup_range'
      · simp
      · rw [UInt64.le_iff_toNat_le]
        simp only [UInt64.zero_add, hclamp, UInt64.toNat_zero]
        omega
      · simp
  unfold start ObjectPoolAllocator.new
  dsimp only
  split
  · exact hnew _ _
  · exact hnew _ _

/-- **Object pools.** In every run of a pool, built with any numbers, whose calls all fit, the pool
is in order and every `Create` ended as it should. -/
theorem safe_of_fits {iInitNum iMaxNum iIncNum : UInt64} {s : PoolState}
    (h : Reach step Fits (start iInitNum iMaxNum iIncNum) s) : s.Safe :=
  (h.inv (inv_start iInitNum iMaxNum iIncNum) fun hinv hfits hs => hinv.step hfits hs).toSafe

/-- A pool of one object that may have two: it grows, and one is given back. -/
theorem safe_of_fits_one : ∃ s, Reach step Fits (start 1 2 1) s ∧ s.log.length = 2 ∧ s.Safe := by
  obtain ⟨s, hrun, hlog⟩ : ∃ s, run step (fun s e => decide (s.Fits e))
      [.create false, .create true, .destroy 0] (start 1 2 1) = some s ∧ s.log.length = 2 :=
    ⟨_, rfl, rfl⟩
  have hreach := Reach.init.run (fun _ _ h => of_decide_eq_true h) _ hrun
  exact ⟨s, hreach, hlog, safe_of_fits hreach⟩

/-- A pool built with the default maximum has the increment `0`. Once its maximum is raised, it
takes the front of an empty list. -/
theorem not_safe : ¬ ∀ (iInitNum iMaxNum iIncNum : UInt64) (s : PoolState),
    Reach step free (start iInitNum iMaxNum iIncNum) s → s.Safe := by
  intro hall
  obtain ⟨s, hrun, hlog⟩ : ∃ s, run step (fun _ _ => true)
      [.setMaxNum 2, .create false, .create false] (start 1 0 120) = some s ∧
      (s.log.map CreateRecord.created) = [.object 0, .emptyFront] := ⟨_, rfl, rfl⟩
  have hsafe := hall 1 0 120 s (reach_of_run _ hrun)
  obtain ⟨r, hr, hcreated⟩ : ∃ r ∈ s.log, r.created = .emptyFront := by
    rw [← List.mem_map, hlog]
    simp
  exact (hsafe.created r hr).front hcreated

end PoolState

end Domq.Base

import Domq.Lib.Text
import Mathlib.Logic.Function.Basic

/-!
# Memory

A flat byte memory with allocation. An address is allocated or not; a block that was allocated is
known by its first address.

* `load`, `store`: a range of bytes, `none` when one of them is not allocated. `memmove` reads the
  whole source before it writes; `memcpy` is the same where the ranges are apart and undefined
  (`none`) elsewhere.
* `new`: a fresh range at a given address, with whatever the memory there holds; `none` when it is
  not fresh, which no allocator does. `delete` gives a block back.

`load_eq_some_iff` says what a load returns byte by byte. The other lemmas say what the load of one
range becomes when another is filled, allocated or given back.
-/

namespace Domq.Lib

/-- The bytes that are allocated, and the lengths of the blocks by their first addresses. -/
structure Memory where
  byte : Nat → Option UInt8
  block : Nat → Option Nat

/-- The ranges of `n` bytes from `p` and of `k` bytes from `q` have no byte in common. -/
def Apart (p n q k : Nat) : Prop := n = 0 ∨ k = 0 ∨ p + n ≤ q ∨ q + k ≤ p

instance (p n q k : Nat) : Decidable (Apart p n q k) :=
  inferInstanceAs (Decidable (n = 0 ∨ k = 0 ∨ p + n ≤ q ∨ q + k ≤ p))

namespace Memory

/-- The `n` bytes from `p` on. -/
def load (m : Memory) : Nat → Nat → Option Bytes
  | _, 0 => some []
  | p, n + 1 =>
    match m.byte p, m.load (p + 1) n with
    | some b, some bs => some (b :: bs)
    | _, _ => none

/-- The memory with the bytes from `p` on replaced. -/
def fill (m : Memory) (p : Nat) (bs : Bytes) : Memory :=
  { m with byte := fun a => if p ≤ a ∧ a < p + bs.length then bs[a - p]? else m.byte a }

def store (m : Memory) (p : Nat) (bs : Bytes) : Option Memory :=
  (m.load p bs.length).map fun _ => m.fill p bs

def memmove (m : Memory) (dst src n : Nat) : Option Memory := (m.load src n).bind (m.store dst)

def memcpy (m : Memory) (dst src n : Nat) : Option Memory :=
  if Apart dst n src n then m.memmove dst src n else none

/-- Nothing is allocated in the range, and no block starts where it does. -/
def Fresh (m : Memory) (p n : Nat) : Prop := (∀ i < n, m.byte (p + i) = none) ∧ m.block p = none

instance (m : Memory) (p n : Nat) : Decidable (m.Fresh p n) :=
  inferInstanceAs (Decidable ((∀ i < n, m.byte (p + i) = none) ∧ m.block p = none))

/-- The memory with a block added, `junk` being what its bytes happen to be. -/
def alloc (m : Memory) (p n : Nat) (junk : Nat → UInt8) : Memory where
  byte a := if p ≤ a ∧ a < p + n then some (junk a) else m.byte a
  block := Function.update m.block p (some n)

def new (m : Memory) (p n : Nat) (junk : Nat → UInt8) : Option Memory :=
  if m.Fresh p n then some (m.alloc p n junk) else none

/-- The memory without the block of `n` bytes at `p`. -/
def free (m : Memory) (p n : Nat) : Memory where
  byte a := if p ≤ a ∧ a < p + n then none else m.byte a
  block := Function.update m.block p none

def delete (m : Memory) (p : Nat) : Option Memory := (m.block p).map (m.free p)

variable {m : Memory} {p n q k off : Nat} {bs old : Bytes} {junk : Nat → UInt8}

/-! ## Loading -/

/-- **What a load returns**, byte by byte. -/
theorem load_eq_some_iff :
    m.load p n = some bs ↔ bs.length = n ∧ ∀ i < n, m.byte (p + i) = bs[i]? := by
  induction n generalizing p bs with
  | zero =>
    simp only [load, Option.some.injEq, List.length_eq_zero_iff]
    exact ⟨fun h => ⟨h.symm, fun i hi => absurd hi (Nat.not_lt_zero i)⟩, fun h => h.1.symm⟩
  | succ n ih =>
    constructor
    · intro h
      simp only [load] at h
      split at h
      · rename_i b rest hb hrest
        obtain ⟨hlen, hall⟩ := ih.mp hrest
        cases h
        refine ⟨by rw [List.length_cons, hlen], fun i hi => ?_⟩
        rcases i with - | i
        · exact hb
        · rw [List.getElem?_cons_succ, ← hall i (by omega)]
          congr 1
          omega
      · cases h
    · rintro ⟨hlen, hall⟩
      rcases bs with - | ⟨b, rest⟩
      · cases hlen
      · have hb : m.byte p = some b := hall 0 (Nat.succ_pos n)
        have hrest : m.load (p + 1) n = some rest := by
          refine ih.mpr ⟨Nat.succ.inj hlen, fun i hi => ?_⟩
          have h := hall (i + 1) (by omega)
          rw [List.getElem?_cons_succ] at h
          rw [← h]
          congr 1
          omega
        simp only [load, hb, hrest]

theorem length_load (h : m.load p n = some bs) : bs.length = n := (load_eq_some_iff.mp h).1

theorem byte_load (h : m.load p n = some bs) {a : Nat} (hp : p ≤ a) (ha : a < p + n) :
    m.byte a = bs[a - p]? := by
  rw [← (load_eq_some_iff.mp h).2 (a - p) (by omega), Nat.add_sub_cancel' hp]

/-- What is loaded depends on the bytes of the range only. -/
theorem load_congr {m' : Memory} (h : m.load p n = some bs)
    (hsame : ∀ a, p ≤ a → a < p + n → m'.byte a = m.byte a) : m'.load p n = some bs := by
  obtain ⟨hlen, hall⟩ := load_eq_some_iff.mp h
  refine load_eq_some_iff.mpr ⟨hlen, fun i hi => ?_⟩
  rw [hsame _ (Nat.le_add_right _ _) (by omega), hall i hi]

/-- A part of what was loaded. -/
theorem load_part (h : m.load p n = some bs) (hk : off + k ≤ n) :
    m.load (p + off) k = some ((bs.drop off).take k) := by
  obtain ⟨hlen, hall⟩ := load_eq_some_iff.mp h
  refine load_eq_some_iff.mpr ⟨?_, fun i hi => ?_⟩
  · rw [List.length_take, List.length_drop]
    omega
  · rw [List.getElem?_take_of_lt hi, List.getElem?_drop, ← hall (off + i) (by omega), Nat.add_assoc]

theorem load_take (h : m.load p n = some bs) (hk : k ≤ n) : m.load p k = some (bs.take k) := by
  have hfit : 0 + k ≤ n := by omega
  have hpart := load_part h hfit
  rwa [List.drop_zero, Nat.add_zero] at hpart

/-- Every allocated range can be loaded. -/
theorem exists_load (h : ∀ a, p ≤ a → a < p + n → (m.byte a).isSome) :
    ∃ bs, m.load p n = some bs := by
  induction n generalizing p with
  | zero => exact ⟨[], rfl⟩
  | succ n ih =>
    obtain ⟨b, hb⟩ := Option.isSome_iff_exists.mp (h p (Nat.le_refl p) (by omega))
    obtain ⟨bs, hbs⟩ := ih (p := p + 1) fun a hp ha => h a (by omega) (by omega)
    exact ⟨b :: bs, by simp only [load, hb, hbs]⟩

/-! ## Filling -/

/-- A range apart from the one filled is as it was. -/
theorem load_fill_apart (h : m.load p n = some old) (hap : Apart p n q bs.length) :
    (m.fill q bs).load p n = some old := by
  refine load_congr h fun a hp ha => if_neg ?_
  unfold Apart at hap
  omega

/-- A part of a range is filled. -/
theorem load_fill_part (h : m.load p n = some old) (hfit : off + bs.length ≤ n) :
    (m.fill (p + off) bs).load p n =
      some (old.take off ++ bs ++ old.drop (off + bs.length)) := by
  obtain ⟨hlen, hall⟩ := load_eq_some_iff.mp h
  have htake : (old.take off).length = off := by
    rw [List.length_take]
    omega
  refine load_eq_some_iff.mpr ⟨?_, fun i hi => ?_⟩
  · rw [List.length_append, List.length_append, htake, List.length_drop]
    omega
  · show (if p + off ≤ p + i ∧ p + i < p + off + bs.length then _ else _) = _
    split
    · rw [List.append_assoc, List.getElem?_append_right (by omega), htake,
        List.getElem?_append_left (by omega)]
      congr 1
      omega
    · by_cases hlo : i < off
      · rw [hall i hi, List.append_assoc, List.getElem?_append_left (by omega),
          List.getElem?_take_of_lt hlo]
      · have hpre : (old.take off ++ bs).length = off + bs.length := by
          rw [List.length_append, htake]
        rw [hall i hi, List.getElem?_append_right (by omega), hpre, List.getElem?_drop]
        congr 1
        omega

theorem store_eq_fill (h : m.load p n = some old) (hfit : off + bs.length ≤ n) :
    m.store (p + off) bs = some (m.fill (p + off) bs) := by
  unfold store
  rw [load_part h hfit]
  rfl

/-! ## Allocating and giving back -/

/-- What is allocated is apart from what is fresh. -/
theorem Fresh.apart (hf : m.Fresh p n) (h : m.load q k = some bs) : Apart q k p n := by
  by_contra hap
  have hin : max p q < q + k ∧ max p q < p + n := by
    unfold Apart at hap
    omega
  have hsome := byte_load h (a := max p q) (le_max_right _ _) hin.1
  have hnone := hf.1 (max p q - p) (by omega)
  rw [Nat.add_sub_cancel' (le_max_left _ _), hsome, List.getElem?_eq_none_iff,
    length_load h] at hnone
  omega

theorem load_alloc_apart (hf : m.Fresh p n) (h : m.load q k = some bs) :
    (m.alloc p n junk).load q k = some bs := by
  have hap := hf.apart h
  refine load_congr h fun a hq ha => if_neg ?_
  unfold Apart at hap
  omega

theorem load_alloc : ∃ bs, (m.alloc p n junk).load p n = some bs := by
  refine exists_load fun a hp ha => ?_
  show (if p ≤ a ∧ a < p + n then some (junk a) else m.byte a).isSome
  rw [if_pos ⟨hp, ha⟩]
  rfl

@[simp] theorem block_alloc : (m.alloc p n junk).block p = some n := Function.update_self ..

theorem load_free_apart (h : m.load q k = some bs) (hap : Apart q k p n) :
    (m.free p n).load q k = some bs := by
  refine load_congr h fun a hq ha => if_neg ?_
  unfold Apart at hap
  omega

@[simp] theorem block_fill : (m.fill p bs).block = m.block := rfl

end Memory

end Domq.Lib

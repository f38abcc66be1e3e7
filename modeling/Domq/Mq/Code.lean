import Domq.Mq.Session

/-!
# Session codes

The loop of `QueueMgr::GenMsgQueueCode` (`mq/src/queuemgr.cpp`): sixteen calls of `sprintf` into
`char buf[2*sizeof(uuid_t)]`, each of which writes two digits and a terminator.

`loopWrites` is every byte written, by its offset from `buf`. `bufAfter` is the memory from `buf` on
after the loop, `behind` being what lies behind the array, and `codeReturned` is the string made of
it.

Results: `codeReturned_eq`: the string is the code that `genMsgQueueCode` gives, so different uuids
have different codes (`codeReturned_injective`); `writes_outside`: the terminator of the last digit,
and no other byte, is written behind the array.
-/

namespace Domq.Mq

open Domq.Lib

/-- `sizeof(buf)`. -/
def BUF_SIZE : Nat := 2 * 16

/-- `sprintf(buf + pos, "%02x", c)`. -/
def sprintfHex (pos : Nat) (c : UInt8) : List (Nat × UInt8) :=
  [(pos, hexDigit (c.toNat / 16)), (pos + 1, hexDigit (c.toNat % 16)), (pos + 2, 0)]

/-- The bytes written by the loop, in order. -/
def loopWrites (uuid : Uuid) : List (Nat × UInt8) :=
  (List.range 16).flatMap fun i => sprintfHex (2 * i) (uuid.bytes.getD i 0)

/-- Bytes are written at their offsets. -/
def writeAll (mem : Bytes) (ws : List (Nat × UInt8)) : Bytes :=
  ws.foldl (fun mem w => mem.set w.1 w.2) mem

/-- The memory from `buf` on after the loop. -/
def bufAfter (uuid : Uuid) (behind : Bytes) : Bytes :=
  writeAll (List.replicate BUF_SIZE 0 ++ behind) (loopWrites uuid)

/-- `return buf`. -/
def codeReturned (uuid : Uuid) (behind : Bytes) : Bytes :=
  (CStr.ofBytes (bufAfter uuid behind)).bytes

/-- Nothing is written outside the array, and the result is the text of the uuid and of no other
one. -/
structure CodeRight (uuid : Uuid) : Prop where
  inside : ∀ w ∈ loopWrites uuid, w.1 < BUF_SIZE
  text : ∀ b behind, codeReturned uuid (b :: behind) = hexText uuid.bytes
  length : ∀ b behind, (codeReturned uuid (b :: behind)).length = 32
  distinct : ∀ (v : Uuid) b behind b' behind',
    codeReturned v (b' :: behind') = codeReturned uuid (b :: behind) → v = uuid

/-! ## The loop -/

/-- The writes for the bytes of a string, from an offset on. -/
def writesFrom : Nat → Bytes → List (Nat × UInt8)
  | _, [] => []
  | pos, c :: s => sprintfHex pos c ++ writesFrom (pos + 2) s

theorem flatMap_sprintfHex (s : Bytes) (pos : Nat) :
    ((List.range s.length).flatMap fun i => sprintfHex (pos + 2 * i) (s.getD i 0)) =
      writesFrom pos s := by
  induction s generalizing pos with
  | nil => rfl
  | cons c s ih =>
    rw [List.length_cons, List.range_succ_eq_map, List.flatMap_cons, List.flatMap_map]
    show sprintfHex pos c ++ _ = sprintfHex pos c ++ writesFrom (pos + 2) s
    rw [← ih (pos + 2)]
    congr 1
    refine List.flatMap_congr fun i _ => ?_
    rw [List.getD_cons_succ]
    congr 1
    omega

theorem loopWrites_eq (uuid : Uuid) : loopWrites uuid = writesFrom 0 uuid.bytes := by
  rw [← flatMap_sprintfHex, uuid.length_eq]
  unfold loopWrites
  simp only [Nat.zero_add]

/-- Each call overwrites the terminator of the one before and writes its own. -/
theorem writeAll_writesFrom (s pre rest : Bytes) (h : 2 * s.length ≤ rest.length) :
    writeAll (pre ++ 0 :: rest) (writesFrom pre.length s) =
      pre ++ hexText s ++ 0 :: rest.drop (2 * s.length) := by
  induction s generalizing pre rest with
  | nil => simp [writesFrom, writeAll, hexText]
  | cons c s ih =>
    rw [List.length_cons] at h
    rcases rest with - | ⟨x, - | ⟨y, rest⟩⟩
    · simp at h
    · simp only [List.length_cons, List.length_nil] at h
      omega
    · simp only [List.length_cons] at h
      have hcall : writeAll (pre ++ 0 :: x :: y :: rest) (sprintfHex pre.length c) =
          pre ++ hex2 c ++ 0 :: rest := by
        simp [writeAll, sprintfHex, hex2]
      have hpos : pre.length + 2 = (pre ++ hex2 c).length := by
        rw [List.length_append]
        rfl
      have hrest := ih (pre ++ hex2 c) rest (by omega)
      show writeAll _ (sprintfHex pre.length c ++ writesFrom (pre.length + 2) s) = _
      unfold writeAll at hcall hrest ⊢
      rw [List.foldl_append, hcall, hpos, hrest, hexText_cons, List.append_assoc pre,
        List.length_cons, Nat.mul_succ]
      rfl

/-- **The memory after the loop**: the text, and a terminator behind the array. -/
theorem bufAfter_eq (uuid : Uuid) (b : UInt8) (behind : Bytes) :
    bufAfter uuid (b :: behind) = hexText uuid.bytes ++ 0 :: behind := by
  have hlen := uuid.length_eq
  have h := writeAll_writesFrom uuid.bytes [] (List.replicate 31 0 ++ b :: behind)
    (by rw [hlen]; simp)
  unfold bufAfter
  rw [loopWrites_eq]
  refine Eq.trans h ?_
  rw [hlen]
  simp

/-- **The code.** -/
theorem codeReturned_eq (uuid : Uuid) (b : UInt8) (behind : Bytes) :
    codeReturned uuid (b :: behind) = genMsgQueueCode uuid := by
  unfold codeReturned
  rw [bufAfter_eq]
  show (hexText uuid.bytes ++ 0 :: behind).takeWhile _ = hexText uuid.bytes
  rw [List.takeWhile_append_of_pos fun c hc => by simpa using hexText_ne_zero hc]
  simp

theorem length_codeReturned (uuid : Uuid) (b : UInt8) (behind : Bytes) :
    (codeReturned uuid (b :: behind)).length = 32 := by
  rw [codeReturned_eq, genMsgQueueCode, length_hexText, uuid.length_eq]

/-- **Different uuids have different codes**, whatever lies behind the array. -/
theorem codeReturned_injective {u v : Uuid} {b b' : UInt8} {behind behind' : Bytes}
    (h : codeReturned u (b :: behind) = codeReturned v (b' :: behind')) : u = v := by
  rw [codeReturned_eq, codeReturned_eq] at h
  exact genMsgQueueCode_injective h

/-! ## The array -/

theorem mem_writesFrom {s : Bytes} {pos : Nat} {w : Nat × UInt8} (hw : w ∈ writesFrom pos s) :
    w.1 < pos + 2 * s.length ∨ w = (pos + 2 * s.length, 0) := by
  induction s generalizing pos with
  | nil => cases hw
  | cons c s ih =>
    rw [List.length_cons]
    rcases List.mem_append.mp hw with hw | hw
    · simp only [sprintfHex, List.mem_cons, List.not_mem_nil, or_false] at hw
      rcases hw with rfl | rfl | rfl
      · left
        simp only
        omega
      · left
        simp only
        omega
      · -- the terminator is overwritten, unless this is the last call
        rcases s with - | ⟨d, s⟩
        · exact .inr rfl
        · left
          simp only [List.length_cons]
          omega
    · have hpos : pos + 2 + 2 * s.length = pos + 2 * (s.length + 1) := by omega
      rw [← hpos]
      exact ih hw

theorem terminator_mem {s : Bytes} (hs : s ≠ []) (pos : Nat) :
    (pos + 2 * s.length, (0 : UInt8)) ∈ writesFrom pos s := by
  induction s generalizing pos with
  | nil => exact absurd rfl hs
  | cons c s ih =>
    rcases s with - | ⟨d, s⟩
    · simp [writesFrom, sprintfHex]
    · have hpos : pos + 2 * (c :: d :: s).length = pos + 2 + 2 * (d :: s).length := by
        simp only [List.length_cons]
        omega
      rw [hpos]
      exact List.mem_append_right _ (ih (by simp) (pos + 2))

/-- **What is written outside the array**: one terminator, right behind it. -/
theorem writes_outside (uuid : Uuid) (w : Nat × UInt8) :
    w ∈ loopWrites uuid ∧ BUF_SIZE ≤ w.1 ↔ w = (BUF_SIZE, 0) := by
  have hlen := uuid.length_eq
  rw [loopWrites_eq]
  constructor
  · rintro ⟨hw, hout⟩
    have hcases := mem_writesFrom hw
    rw [hlen] at hcases
    exact hcases.resolve_left (Nat.not_lt.mpr hout)
  · rintro rfl
    have hmem := terminator_mem (s := uuid.bytes) (by
      intro hnil
      rw [hnil] at hlen
      cases hlen) 0
    rw [hlen] at hmem
    exact ⟨hmem, Nat.le_refl _⟩

/-- **No uuid is written inside the array.** -/
theorem code_never_right (uuid : Uuid) : ¬ CodeRight uuid := by
  intro h
  have hlast := (writes_outside uuid (BUF_SIZE, 0)).mpr rfl
  exact absurd (h.inside _ hlast.1) (Nat.not_lt.mpr hlast.2)

/-- The uuid of sixteen zero bytes. -/
theorem code_overrun : ¬ ∀ uuid : Uuid, CodeRight uuid := by
  intro hall
  have hlast : (32, 0) ∈ loopWrites (Uuid.ofByte 0) := by decide
  exact absurd ((hall (Uuid.ofByte 0)).inside _ hlast) (by decide)

end Domq.Mq

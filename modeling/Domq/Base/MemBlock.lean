import Domq.Lib.Bounded
import Domq.Lib.Text

/-!
# `MemBlock`

The growing buffer of `base/util/memblock.cpp`: an allocated block and how much of it is in use
(`_end - _begin`), which never exceeds it. Offsets from `_begin` stand for the pointers. `write` is
what `memmove` or a system call does that fills a part of the block.

`MemBlock.data` is the contents in use; `data_receive` and `data_discard` are the two ways
`HandleInput` changes it, `data_append` and `data_shift` those of `Send` and `HandleOutput`.
`MemBlock.contents` is a list with a capacity, and each function has a lemma that says what it does
to that list. A function that returns `-1` and leaves the block alone is `none` there. Memory that
is allocated and not written yet is zero here; `data` never contains it. Allocation does not fail.
-/

namespace Domq.Base

open Domq.Lib

/-- `MemBlock`. -/
structure MemBlock where
  block : Bytes
  /-- `Size()` -/
  size : Nat
  size_le : size ≤ block.length

namespace MemBlock

/-- `TotalSpace`. -/
def totalSpace (m : MemBlock) : Nat := m.block.length

/-- `FreeSpace`. -/
def freeSpace (m : MemBlock) : Nat := m.totalSpace - m.size

/-- The bytes from `_begin` to `_end`. -/
def data (m : MemBlock) : Bytes := m.block.take m.size

/-- `MemBlock(iSize)`. -/
def new (iSize : Nat) : MemBlock := ⟨List.replicate iSize 0, 0, Nat.zero_le _⟩

@[simp] theorem length_data (m : MemBlock) : m.data.length = m.size :=
  List.length_take_of_le m.size_le

/-- `Resize`. -/
def resize (iSize : Nat) (m : MemBlock) : MemBlock :=
  if h : iSize ≤ m.totalSpace then
    ⟨m.block, min m.size iSize, (Nat.min_le_right _ _).trans h⟩
  else
    ⟨m.data ++ List.replicate (iSize - m.size) 0, m.size, by
      rw [List.length_append, length_data]
      omega⟩

/-- Bytes are written into the block at an offset. -/
def write (pos : Nat) (bytes : Bytes) (m : MemBlock) : MemBlock :=
  ⟨m.block.take pos ++ bytes ++ m.block.drop (pos + bytes.length), m.size, by
    have hle := m.size_le
    simp only [List.length_append, List.length_take, List.length_drop]
    omega⟩

/-- `AddSpace`. -/
def addSpace (iSize : Nat) (m : MemBlock) : Option MemBlock :=
  if h : m.freeSpace < iSize then none
  else
    some ⟨m.block, m.size + iSize, by
      have hle := m.size_le
      unfold freeSpace totalSpace at h
      omega⟩

/-- `ReduceSpace`. -/
def reduceSpace (iSize : Nat) (m : MemBlock) : Option MemBlock :=
  if m.size < iSize then none
  else some ⟨m.block, m.size - iSize, (Nat.sub_le _ _).trans m.size_le⟩

/-- `Copy`, the source being in the block. -/
def copy (dest src iSize : Nat) (m : MemBlock) : Option MemBlock :=
  if m.size < dest then none
  else
    let m' := if m.totalSpace < dest + iSize then m.resize (dest + iSize) else m
    (m'.write dest ((m'.block.drop src).take iSize)).addSpace (dest + iSize - m.size)

/-- `Copy`, the source being outside the block. -/
def copyFrom (dest : Nat) (bytes : Bytes) (m : MemBlock) : Option MemBlock :=
  if m.size < dest then none
  else
    let m' := if m.totalSpace < dest + bytes.length then m.resize (dest + bytes.length) else m
    (m'.write dest bytes).addSpace (dest + bytes.length - m.size)

/-- `Append`. -/
def append (bytes : Bytes) (m : MemBlock) : Option MemBlock := m.copyFrom m.size bytes

/-- `Clear`. -/
def clear (m : MemBlock) : MemBlock := ⟨m.block, 0, Nat.zero_le _⟩

/-! ## A list with a capacity -/

/-- The bytes in use, and the space of the block. -/
def contents (m : MemBlock) : Bounded UInt8 :=
  ⟨m.data, m.totalSpace, by
    rw [length_data]
    exact m.size_le⟩

@[simp] theorem items_contents (m : MemBlock) : m.contents.items = m.data := rfl

@[simp] theorem capacity_contents (m : MemBlock) : m.contents.capacity = m.totalSpace := rfl

theorem length_contents (m : MemBlock) : m.contents.items.length = m.size := length_data m

theorem free_contents (m : MemBlock) : m.contents.free = m.freeSpace := by
  unfold Bounded.free freeSpace
  rw [length_contents, capacity_contents]

/-- Bytes are written over the contents from an offset inside on, and `AddSpace` is called for what
reaches beyond the end. -/
theorem contents_put {m : MemBlock} {dest : Nat} {w : Bytes} (hd : dest ≤ m.size)
    (hroom : dest + w.length ≤ m.totalSpace) :
    ∃ m', (m.write dest w).addSpace (dest + w.length - m.size) = some m' ∧
      m'.contents = m.contents.put dest w := by
  have hle := m.size_le
  unfold totalSpace at hroom
  have htake : (m.block.take dest).length = dest := by
    rw [List.length_take]
    omega
  have hlen : (m.write dest w).totalSpace = m.totalSpace := by
    unfold totalSpace
    simp only [write, List.length_append, htake, List.length_drop]
    omega
  have hfree : ¬ (m.write dest w).freeSpace < dest + w.length - m.size := by
    unfold freeSpace
    rw [hlen]
    show ¬ m.block.length - m.size < _
    omega
  refine ⟨_, dif_neg hfree, ?_⟩
  ext1
  · show (m.block.take dest ++ w ++ m.block.drop (dest + w.length)).take
      (m.size + (dest + w.length - m.size)) = m.data.take dest ++ w ++ m.data.drop (dest + w.length)
    have hpre : (m.block.take dest ++ w).length = dest + w.length := by
      rw [List.length_append, htake]
    have hdata : m.data.take dest = m.block.take dest := by
      unfold data
      rw [List.take_take, Nat.min_eq_left hd]
    rw [List.take_append, hpre, List.take_of_length_le (by omega), hdata]
    congr 1
    unfold data
    rw [List.drop_take]
    congr 1
    omega
  · show (m.write dest w).totalSpace = max m.totalSpace (dest + w.length)
    rw [hlen]
    unfold totalSpace
    omega

theorem contents_resize (k : Nat) (m : MemBlock) :
    (m.resize k).contents = m.contents.shrink k := by
  have hle := m.size_le
  unfold resize
  split
  · rename_i hk
    ext1
    · show m.block.take (min m.size k) = (m.block.take m.size).take k
      rw [List.take_take, Nat.min_comm]
    · exact (Nat.max_eq_left hk).symm
  · rename_i hk
    unfold totalSpace at hk
    ext1
    · show (m.data ++ _).take m.size = m.data.take k
      rw [List.take_append_of_le_length (by simp), List.take_of_length_le (by simp),
        List.take_of_length_le (by rw [length_data]; omega)]
    · show (m.data ++ List.replicate (k - m.size) 0).length = max m.block.length k
      rw [List.length_append, length_data, List.length_replicate]
      omega

/-- Making room keeps the contents. -/
theorem data_resize {n : Nat} {m : MemBlock} (h : m.size ≤ n) :
    (m.resize n).data = m.data ∧ (m.resize n).size = m.size ∧ n ≤ (m.resize n).totalSpace := by
  have hc := contents_resize n m
  have hdata : (m.resize n).data = m.data := by
    rw [← items_contents, hc, Bounded.items_shrink (by simpa using h), items_contents]
  refine ⟨hdata, by rw [← length_data, hdata, length_data], ?_⟩
  rw [← capacity_contents, hc]
  exact le_max_right _ _

/-- The room that `Copy` makes before it writes, and what it writes. -/
theorem contents_put_room {m m₁ : MemBlock} {dest : Nat} {w : Bytes} (hd : dest ≤ m.size)
    (h : m₁ = if m.totalSpace < dest + w.length then m.resize (dest + w.length) else m) :
    ∃ m', (m₁.write dest w).addSpace (dest + w.length - m.size) = some m' ∧
      m'.contents = m.contents.put dest w := by
  have hle := m.size_le
  split at h
  · rename_i hfull
    unfold totalSpace at hfull
    subst h
    obtain ⟨hdata, hsize, hroom⟩ := data_resize (m := m) (n := dest + w.length) (by omega)
    obtain ⟨m', hm', hc⟩ := contents_put (hsize.symm ▸ hd) hroom
    rw [hsize] at hm'
    refine ⟨m', hm', ?_⟩
    have hall : m.data.take (dest + w.length) = m.data :=
      List.take_of_length_le (by rw [length_data]; omega)
    rw [hc, contents_resize]
    ext1
    · show (m.data.take _).take dest ++ w ++ (m.data.take _).drop _ = _
      rw [hall]
      rfl
    · exact max_eq_left (le_max_right _ _)
  · subst h
    exact contents_put hd (by omega)

/-- **`Copy` from outside the block.** -/
theorem contents_copyFrom {m : MemBlock} {dest : Nat} (hd : dest ≤ m.size) (w : Bytes) :
    ∃ m', m.copyFrom dest w = some m' ∧ m'.contents = m.contents.put dest w := by
  unfold copyFrom
  rw [if_neg (Nat.not_lt.mpr hd)]
  exact contents_put_room hd rfl

/-- **`Copy` of a part of the contents.** -/
theorem contents_copy {m : MemBlock} {dest src n : Nat} (hd : dest ≤ m.size)
    (hs : src + n ≤ m.size) :
    ∃ m', m.copy dest src n = some m' ∧
      m'.contents = m.contents.put dest ((m.data.drop src).take n) := by
  have hle := m.size_le
  have hlen : ((m.data.drop src).take n).length = n := by
    rw [List.length_take, List.length_drop, length_data]
    omega
  have hpart : ∀ m₁ : MemBlock, m₁.data = m.data →
      (m₁.block.drop src).take n = (m.data.drop src).take n := by
    intro m₁ hdata
    have hsize : m₁.size = m.size := by rw [← length_data, hdata, length_data]
    rw [← hdata]
    unfold data
    rw [List.drop_take, List.take_take, Nat.min_eq_left (by omega)]
  unfold copy
  rw [if_neg (Nat.not_lt.mpr hd)]
  simp only
  obtain ⟨m', hm', hc⟩ := contents_put_room (w := (m.data.drop src).take n) hd rfl
  rw [hlen] at hm'
  refine ⟨m', ?_, hc⟩
  rw [← hm', hpart]
  split
  · rename_i hfull
    unfold totalSpace at hfull
    exact (data_resize (by omega)).1
  · rfl

theorem addSpace_eq_none_iff {m : MemBlock} {k : Nat} :
    m.addSpace k = none ↔ m.freeSpace < k := by
  unfold addSpace
  split
  · rename_i h
    exact ⟨fun _ => h, fun _ => rfl⟩
  · rename_i h
    exact ⟨fun hsome => absurd hsome (Option.some_ne_none _), fun hlt => absurd hlt h⟩

theorem contents_addSpace {m m' : MemBlock} {k : Nat} (h : m.addSpace k = some m') :
    m.contents.Grows k m'.contents := by
  have hle := m.size_le
  unfold addSpace at h
  split at h
  · cases h
  · rename_i hk
    cases h
    unfold freeSpace totalSpace at hk
    refine ⟨rfl, (m.block.drop m.size).take k, ?_, ?_⟩
    · rw [List.length_take, List.length_drop]
      omega
    · exact List.take_add

theorem reduceSpace_eq_none_iff {m : MemBlock} {k : Nat} :
    m.reduceSpace k = none ↔ m.size < k := by
  unfold reduceSpace
  split
  · rename_i h
    exact ⟨fun _ => h, fun _ => rfl⟩
  · rename_i h
    exact ⟨fun hsome => absurd hsome (Option.some_ne_none _), fun hlt => absurd hlt h⟩

theorem contents_reduceSpace {m m' : MemBlock} {k : Nat} (h : m.reduceSpace k = some m') :
    m'.contents = m.contents.dropEnd k := by
  unfold reduceSpace at h
  split at h
  · cases h
  · cases h
    ext1
    · show m.block.take (m.size - k) = m.data.take (m.data.length - k)
      rw [length_data]
      unfold data
      rw [List.take_take, Nat.min_eq_left (Nat.sub_le _ _)]
    · rfl

/-! ## What the handlers do -/

/-- What is put behind the contents is appended. -/
theorem data_of_put_end {m m' : MemBlock} {w : Bytes}
    (h : m'.contents = m.contents.put m.size w) : m'.data = m.data ++ w := by
  rw [← items_contents, h, ← length_data m, ← items_contents m, Bounded.items_put_end]

/-- **Receiving**: bytes written behind the contents, and `AddSpace` of their number. -/
theorem data_receive {m : MemBlock} {bytes : Bytes} (h : m.size + bytes.length ≤ m.totalSpace) :
    ∃ m', (m.write m.size bytes).addSpace bytes.length = some m' ∧ m'.data = m.data ++ bytes := by
  obtain ⟨m', hm', hc⟩ := contents_put (Nat.le_refl m.size) h
  rw [Nat.add_sub_cancel_left] at hm'
  exact ⟨m', hm', data_of_put_end hc⟩

/-- **Appending**: the block grows when there is no room. -/
theorem data_append (bytes : Bytes) (m : MemBlock) :
    ∃ m', m.append bytes = some m' ∧ m'.data = m.data ++ bytes := by
  obtain ⟨m', hm', hc⟩ := contents_copyFrom (Nat.le_refl m.size) bytes
  exact ⟨m', hm', data_of_put_end hc⟩

/-- `Copy` of the end to the front. -/
theorem copy_front {m : MemBlock} {n : Nat} (h : n ≤ m.size) :
    ∃ m', m.copy 0 n (m.size - n) = some m' ∧ m'.size = m.size ∧
      m'.block.take (m.size - n) = m.data.drop n := by
  have hlen : (m.data.drop n).length = m.size - n := by rw [List.length_drop, length_data]
  have hw : (m.data.drop n).take (m.size - n) = m.data.drop n :=
    List.take_of_length_le (Nat.le_of_eq hlen)
  obtain ⟨m', hm', hc⟩ := contents_copy (Nat.zero_le m.size)
    (show n + (m.size - n) ≤ m.size by omega)
  rw [hw] at hc
  have hdata : m'.data = m.data.drop n ++ m.data.drop (m.size - n) := by
    rw [← items_contents, hc, Bounded.items_put, hlen, items_contents, Nat.zero_add]
    rfl
  have hsize : m'.size = m.size := by
    rw [← length_data, hdata, List.length_append, hlen, List.length_drop, length_data]
    omega
  refine ⟨m', hm', hsize, ?_⟩
  have htake : m'.block.take (m.size - n) = m'.data.take (m.size - n) := by
    unfold data
    rw [List.take_take, hsize, Nat.min_eq_left (Nat.sub_le _ _)]
  rw [htake, hdata, List.take_append_of_le_length (Nat.le_of_eq hlen.symm),
    List.take_of_length_le (Nat.le_of_eq hlen)]

/-- **Discarding**: `Copy` of the end to the front, and `ReduceSpace`. -/
theorem data_discard {m : MemBlock} {n : Nat} (h : n ≤ m.size) :
    ∃ m' m'', m.copy 0 n (m.size - n) = some m' ∧ m'.reduceSpace n = some m'' ∧
      m''.data = m.data.drop n := by
  obtain ⟨m', hcopy, hsize, hdata⟩ := copy_front h
  refine ⟨m', ⟨m'.block, m'.size - n, (Nat.sub_le _ _).trans m'.size_le⟩, hcopy, ?_, ?_⟩
  · unfold reduceSpace
    rw [if_neg (by omega)]
  · show m'.block.take (m'.size - n) = _
    rw [hsize, hdata]

/-- **Shifting**: `Copy` of the end to the front, and `Resize` to what is left. -/
theorem data_shift {m : MemBlock} {n : Nat} (h : n ≤ m.size) :
    ∃ m', m.copy 0 n (m.size - n) = some m' ∧
      (m'.resize (m'.size - n)).data = m.data.drop n := by
  obtain ⟨m', hcopy, hsize, hdata⟩ := copy_front h
  refine ⟨m', hcopy, ?_⟩
  have hle : m'.size - n ≤ m'.totalSpace := (Nat.sub_le _ _).trans m'.size_le
  unfold resize
  rw [dif_pos hle]
  show m'.block.take (min m'.size (m'.size - n)) = _
  rw [Nat.min_eq_right (Nat.sub_le _ _), hsize, hdata]

end MemBlock

end Domq.Base

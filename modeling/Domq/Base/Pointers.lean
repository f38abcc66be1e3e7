import Domq.Base.MemBlock
import Domq.Lib.Memory

/-!
# `MemBlock`, by its pointers

The code of `base/util/memblock.cpp` over a flat memory: three pointers and `size_t` and `ssize_t`
arithmetic in 64 bits. `MemBlock` is what such a block looks like from outside (`Views`).

* `Resize` calls `Append` on a temporary block, `Append` is `Copy`, and `Copy` calls `Resize`. The
  recursion is cut at a depth; nothing depends on it, because the temporary block is large enough.
* After `Swap` the temporary block holds the old pointers, so its destructor gives the old block
  back. Later uses of the old address are undefined.
* `none` is undefined behaviour: a byte that is not allocated, overlapping ranges for `memcpy`, a
  block given back twice. A `Grant` is what the allocator does when it is asked: address 0 stands
  for failure.

Results: what one call leaves, as a list with a capacity, and what it does not touch
(`Views.resize_grow`, `Views.copy`, `Views.constructCopy`).
-/

namespace Domq.Base

open Domq.Lib

/-- `_begin`, `_end` and `_blockEnd`. -/
structure Pointers where
  begin_ : UInt64
  end_ : UInt64
  blockEnd_ : UInt64

/-- What the allocator answers, and what the memory there holds. -/
structure Grant where
  address : UInt64
  junk : Nat → UInt8

namespace Pointers

/-- `Size`. -/
def size (p : Pointers) : UInt64 := p.end_ - p.begin_

/-- `FreeSpace`. -/
def freeSpace (p : Pointers) : UInt64 := p.blockEnd_ - p.end_

/-- `TotalSpace`. -/
def totalSpace (p : Pointers) : UInt64 := p.blockEnd_ - p.begin_

/-- `Clear`. -/
def clear (p : Pointers) : Pointers := { p with end_ := p.begin_ }

/-- `AddSpace`. -/
def addSpace (iSize : UInt64) (p : Pointers) : Int × Pointers :=
  if p.freeSpace < iSize then (-1, p) else (0, { p with end_ := p.end_ + iSize })

/-- `ReduceSpace`. -/
def reduceSpace (iSize : UInt64) (p : Pointers) : Int × Pointers :=
  if p.size < iSize then (-1, p) else (0, { p with end_ := p.end_ - iSize })

/-- `GxxMemoryAllocator::Create`. -/
def create (g : Grant) (iSize : UInt64) (mem : Memory) : Option (UInt64 × Memory) :=
  if g.address = 0 then some (0, mem)
  else (mem.new g.address.toNat iSize.toNat g.junk).map fun mem => (g.address, mem)

/-- `MemBlock(iSize)`. -/
def construct (g : Grant) (iSize : UInt64) (mem : Memory) : Option (Pointers × Memory) :=
  (create g iSize mem).map fun x =>
    if x.1 = 0 then (⟨0, 0, 0⟩, x.2) else (⟨x.1, x.1, x.1 + iSize⟩, x.2)

/-- `~MemBlock`. -/
def destroy (p : Pointers) (mem : Memory) : Option Memory :=
  if p.begin_ = 0 then some mem else mem.delete p.begin_.toNat

/-- `iIncSize` of `Copy`. -/
def incSize (iDestSize : UInt64) (p : Pointers) : Int64 :=
  let iIncSize := (iDestSize - p.size).toInt64
  if iIncSize < 0 then 0 else iIncSize

/-- The `memmove` or `memcpy` of `Copy`. -/
def move (iDestOffset iSrcOffset : Int64) (pSrcBuffer iSize : UInt64) (p : Pointers)
    (mem : Memory) : Option Memory :=
  let dest := p.begin_ + iDestOffset.toUInt64
  if 0 ≤ iSrcOffset ∧ iSrcOffset.toUInt64 < p.size then
    mem.memmove dest.toNat (p.begin_ + iSrcOffset.toUInt64).toNat iSize.toNat
  else mem.memcpy dest.toNat pSrcBuffer.toNat iSize.toNat

/-- `Copy`, given the `Resize` it calls. -/
def copyBy (resize : UInt64 → Pointers → Memory → Option (Int × Pointers × Memory))
    (pDestBuffer pSrcBuffer iSize : UInt64) (p : Pointers) (mem : Memory) :
    Option (Int × Pointers × Memory) :=
  if pDestBuffer < p.begin_ ∨ p.end_ < pDestBuffer then some (-1, p, mem)
  else
    let iDestOffset := (pDestBuffer - p.begin_).toInt64
    let iSrcOffset := (pSrcBuffer - p.begin_).toInt64
    let iDestSize := iDestOffset.toUInt64 + iSize
    let iIncSize := p.incSize iDestSize
    match if p.totalSpace < iDestSize then resize iDestSize p mem else some (0, p, mem) with
    | none => none
    | some (ret, p', mem') =>
      if ret ≠ 0 then some (-1, p', mem')
      else
        (p'.move iDestOffset iSrcOffset pSrcBuffer iSize mem').map fun mem' =>
          ((p'.addSpace iIncSize.toUInt64).1, (p'.addSpace iIncSize.toUInt64).2, mem')

/-- `Append`, given the `Resize` that `Copy` calls. -/
def appendBy (resize : UInt64 → Pointers → Memory → Option (Int × Pointers × Memory))
    (pSrcBuffer iSize : UInt64) (p : Pointers) (mem : Memory) : Option (Int × Pointers × Memory) :=
  copyBy resize p.end_ pSrcBuffer iSize p mem

/-- `Resize`, to a depth. -/
def resize (g : Grant) : Nat → UInt64 → Pointers → Memory → Option (Int × Pointers × Memory)
  | 0, _, _, _ => none
  | depth + 1, iSize, p, mem =>
    if iSize ≤ p.totalSpace then
      some (0, if p.begin_ + iSize < p.end_ then { p with end_ := p.begin_ + iSize } else p, mem)
    else
      match construct g iSize mem with
      | none => none
      | some (memBlockTmp, mem) =>
        if memBlockTmp.begin_ = 0 then
          (memBlockTmp.destroy mem).map fun mem => (-1, p, mem)
        else
          match memBlockTmp.appendBy (resize g depth) p.begin_ (min p.size iSize) mem with
          | none => none
          | some (ret, memBlockTmp, mem) =>
            if ret ≠ 0 then (memBlockTmp.destroy mem).map fun mem => (-1, p, mem)
            else (p.destroy mem).map fun mem => (0, memBlockTmp, mem)

/-- `Copy`. -/
def copy (g : Grant) (depth : Nat) : UInt64 → UInt64 → UInt64 → Pointers → Memory →
    Option (Int × Pointers × Memory) := copyBy (resize g depth)

/-- `Append`. -/
def append (g : Grant) (depth : Nat) : UInt64 → UInt64 → Pointers → Memory →
    Option (Int × Pointers × Memory) := appendBy (resize g depth)

/-- A block that is a copy of another one. Where the allocation fails, two of its pointers stay
unset. -/
def constructCopy (g : Grant) (depth : Nat) (memBlock : Pointers) (mem : Memory) :
    Option (Pointers × Memory) :=
  match construct g memBlock.totalSpace mem with
  | none => none
  | some (p, mem) =>
    if p.begin_ = 0 then none
    else (p.append g depth memBlock.begin_ memBlock.size mem).map fun x => x.2

/-! ## Sizes and offsets in 64 bits -/

theorem toInt64_neg_iff (x : UInt64) : x.toInt64 < 0 ↔ 2 ^ 63 ≤ x.toNat := by
  have hx := x.toNat_lt
  have hint : x.toInt64.toInt = x.toBitVec.toInt := rfl
  rw [Int64.lt_iff_toInt_lt, hint, BitVec.toInt_eq_toNat_cond, UInt64.toNat_toBitVec,
    Int64.toInt_zero]
  split <;> omega

theorem toNat_sub_cases (a b : UInt64) :
    (a - b).toNat =
      if b.toNat ≤ a.toNat then a.toNat - b.toNat else 2 ^ 64 + a.toNat - b.toNat := by
  have ha := a.toNat_lt
  have hb := b.toNat_lt
  rw [UInt64.toNat_sub]
  split <;> omega

/-- What a block looks like from outside. -/
structure Views (p : Pointers) (mem : Memory) (m : MemBlock) : Prop where
  notNull : p.begin_ ≠ 0
  end_eq : p.end_.toNat = p.begin_.toNat + m.size
  blockEnd_eq : p.blockEnd_.toNat = p.begin_.toNat + m.totalSpace
  small : m.totalSpace < 2 ^ 63
  held : mem.load p.begin_.toNat m.totalSpace = some m.block
  owned : mem.block p.begin_.toNat = some m.totalSpace

namespace Views

variable {p : Pointers} {mem : Memory} {m m' : MemBlock}

theorem size_le (_ : Views p mem m) : m.size ≤ m.totalSpace := m.size_le

theorem toNat_size (h : Views p mem m) : p.size.toNat = m.size := by
  have hend := h.end_eq
  unfold Pointers.size
  rw [UInt64.toNat_sub_of_le _ _ (UInt64.le_iff_toNat_le.mpr (by omega))]
  omega

theorem toNat_totalSpace (h : Views p mem m) : p.totalSpace.toNat = m.totalSpace := by
  have hend := h.blockEnd_eq
  unfold Pointers.totalSpace
  rw [UInt64.toNat_sub_of_le _ _ (UInt64.le_iff_toNat_le.mpr (by omega))]
  omega

theorem toNat_freeSpace (h : Views p mem m) : p.freeSpace.toNat = m.freeSpace := by
  have hend := h.end_eq
  have hblock := h.blockEnd_eq
  have hle := h.size_le
  unfold Pointers.freeSpace MemBlock.freeSpace
  rw [UInt64.toNat_sub_of_le _ _ (UInt64.le_iff_toNat_le.mpr (by omega))]
  omega

/-- The same block with another end. -/
theorem moveEnd (h : Views p mem m) {e : UInt64} (hb : m'.block = m.block)
    (he : e.toNat = p.begin_.toNat + m'.size) : Views { p with end_ := e } mem m' := by
  have htotal : m'.totalSpace = m.totalSpace := congrArg List.length hb
  exact ⟨h.notNull, he, htotal ▸ h.blockEnd_eq, htotal ▸ h.small,
    by rw [htotal, hb]; exact h.held, htotal ▸ h.owned⟩

theorem addSpace_none (h : Views p mem m) {k : UInt64} (hk : m.addSpace k.toNat = none) :
    p.addSpace k = (-1, p) := by
  unfold MemBlock.addSpace at hk
  split at hk
  · rename_i hfull
    rw [← h.toNat_freeSpace, ← UInt64.lt_iff_toNat_lt] at hfull
    exact if_pos hfull
  · cases hk

theorem addSpace_some (h : Views p mem m) {k : UInt64} (hk : m.addSpace k.toNat = some m') :
    ∃ p', p.addSpace k = (0, p') ∧ p'.begin_ = p.begin_ ∧ Views p' mem m' := by
  have hend := h.end_eq
  have hblock := h.blockEnd_eq
  have hlt := p.blockEnd_.toNat_lt
  unfold MemBlock.addSpace at hk
  split at hk
  · cases hk
  · rename_i hroom
    cases hk
    have hfree : ¬ p.freeSpace < k := by
      rw [UInt64.lt_iff_toNat_lt, h.toNat_freeSpace]
      exact hroom
    refine ⟨_, if_neg hfree, rfl, h.moveEnd rfl ?_⟩
    unfold MemBlock.freeSpace at hroom
    have hle := h.size_le
    rw [UInt64.toNat_add, Nat.mod_eq_of_lt (by omega)]
    show _ = _ + (m.size + k.toNat)
    omega

theorem reduceSpace_none (h : Views p mem m) {k : UInt64} (hk : m.reduceSpace k.toNat = none) :
    p.reduceSpace k = (-1, p) := by
  unfold MemBlock.reduceSpace at hk
  split at hk
  · rename_i hshort
    rw [← h.toNat_size, ← UInt64.lt_iff_toNat_lt] at hshort
    exact if_pos hshort
  · cases hk

theorem reduceSpace_some (h : Views p mem m) {k : UInt64} (hk : m.reduceSpace k.toNat = some m') :
    ∃ p', p.reduceSpace k = (0, p') ∧ Views p' mem m' := by
  have hend := h.end_eq
  unfold MemBlock.reduceSpace at hk
  split at hk
  · cases hk
  · rename_i hlong
    cases hk
    have hsize : ¬ p.size < k := by
      rw [UInt64.lt_iff_toNat_lt, h.toNat_size]
      exact hlong
    refine ⟨_, if_neg hsize, h.moveEnd rfl ?_⟩
    rw [UInt64.toNat_sub_of_le _ _ (UInt64.le_iff_toNat_le.mpr (by omega))]
    show _ = _ + (m.size - k.toNat)
    omega

theorem clear (h : Views p mem m) : Views p.clear mem m.clear := h.moveEnd rfl rfl

/-- `Resize` where the block is large enough. -/
theorem resize_in_place (h : Views p mem m) {k : UInt64} (hk : k.toNat ≤ m.totalSpace) (g : Grant)
    (depth : Nat) : ∃ p', resize g (depth + 1) k p mem = some (0, p', mem) ∧
      Views p' mem (m.resize k.toNat) := by
  have hend := h.end_eq
  have hblock := h.blockEnd_eq
  have hlt := p.blockEnd_.toNat_lt
  have hle := h.size_le
  have hsum : (p.begin_ + k).toNat = p.begin_.toNat + k.toNat := by
    rw [UInt64.toNat_add, Nat.mod_eq_of_lt (by omega)]
  have hfits : k ≤ p.totalSpace := by
    rw [UInt64.le_iff_toNat_le, h.toNat_totalSpace]
    exact hk
  have hm : m.resize k.toNat = ⟨m.block, min m.size k.toNat, (Nat.min_le_right _ _).trans hk⟩ :=
    dif_pos hk
  refine ⟨_, if_pos hfits, ?_⟩
  rw [hm]
  split
  · rename_i hcut
    rw [UInt64.lt_iff_toNat_lt, hsum] at hcut
    refine h.moveEnd rfl ?_
    rw [hsum]
    show _ = _ + min m.size k.toNat
    omega
  · rename_i hcut
    rw [UInt64.lt_iff_toNat_lt, hsum] at hcut
    refine h.moveEnd (e := p.end_) rfl ?_
    show _ = _ + min m.size k.toNat
    omega

end Views

/-! ## Copying into the block -/

/-- The source of a `Copy` as the code finds it: a part of the contents, or bytes that are allocated
and not in the block. -/
inductive Reads (p : Pointers) (mem : Memory) (m : MemBlock) (iSrcOffset : Int64)
    (pSrcBuffer iSize : UInt64) (w : Bytes) : Prop
  | inside (h : 0 ≤ iSrcOffset ∧ iSrcOffset.toUInt64 < p.size)
      (hfit : iSrcOffset.toUInt64.toNat + iSize.toNat ≤ m.size)
      (hw : (m.data.drop iSrcOffset.toUInt64.toNat).take iSize.toNat = w)
  | outside (h : ¬ (0 ≤ iSrcOffset ∧ iSrcOffset.toUInt64 < p.size))
      (hload : mem.load pSrcBuffer.toNat iSize.toNat = some w)
      (hap : Apart pSrcBuffer.toNat iSize.toNat p.begin_.toNat m.totalSpace)

variable {p p₁ : Pointers} {mem mem₁ : Memory} {m m₁ : MemBlock} {g : Grant} {w : Bytes}
variable {iDestOffset iSrcOffset : Int64} {pDestBuffer pSrcBuffer iSize : UInt64} {dest depth : Nat}

theorem Views.toNat_add (h : Views p mem m) {k : UInt64} (hk : k.toNat ≤ m.totalSpace) :
    (p.begin_ + k).toNat = p.begin_.toNat + k.toNat := by
  have hblock := h.blockEnd_eq
  have hlt := p.blockEnd_.toNat_lt
  rw [UInt64.toNat_add, Nat.mod_eq_of_lt (by omega)]

/-- What is in use is loaded from the start of the block. -/
theorem Views.load_data (h : Views p mem m) : mem.load p.begin_.toNat m.size = some m.data :=
  Memory.load_take h.held h.size_le

theorem Reads.length (hr : Reads p mem m iSrcOffset pSrcBuffer iSize w) :
    w.length = iSize.toNat := by
  cases hr with
  | inside _ hfit hw =>
    rw [← hw, List.length_take, List.length_drop, MemBlock.length_data]
    omega
  | outside _ hload _ => exact Memory.length_load hload

theorem Reads.move (h : Views p mem m) (hr : Reads p mem m iSrcOffset pSrcBuffer iSize w)
    (hdest : iDestOffset.toUInt64.toNat = dest) (hfit : dest + iSize.toNat ≤ m.totalSpace) :
    p.move iDestOffset iSrcOffset pSrcBuffer iSize mem =
      some (mem.fill (p.begin_.toNat + dest) w) := by
  have hlen := hr.length
  have hle := h.size_le
  have hto : (p.begin_ + iDestOffset.toUInt64).toNat = p.begin_.toNat + dest := by
    rw [h.toNat_add (by omega), hdest]
  have hroom : dest + w.length ≤ m.totalSpace := by omega
  have hstore := Memory.store_eq_fill h.held hroom
  cases hr with
  | inside hin hoff hw =>
    have hload := Memory.load_part h.load_data hoff
    rw [hw] at hload
    unfold Pointers.move
    simp only [if_pos hin, hto, h.toNat_add (Nat.le_trans (Nat.le_of_add_right_le hoff) hle)]
    unfold Memory.memmove
    rw [hload, Option.bind_some, hstore]
  | outside hout hload hap =>
    have hap' : Apart (p.begin_.toNat + dest) iSize.toNat pSrcBuffer.toNat iSize.toNat := by
      unfold Apart at hap ⊢
      omega
    unfold Pointers.move
    simp only [if_neg hout, hto]
    unfold Memory.memcpy Memory.memmove
    rw [if_pos hap', hload, Option.bind_some, hstore]

/-- The block with a part of it written. -/
theorem Views.fill (h : Views p mem m) (hfit : dest + w.length ≤ m.totalSpace) :
    Views p (mem.fill (p.begin_.toNat + dest) w) (m.write dest w) := by
  have htotal : (m.write dest w).totalSpace = m.totalSpace := by
    unfold MemBlock.totalSpace at hfit ⊢
    simp only [MemBlock.write, List.length_append, List.length_take, List.length_drop]
    omega
  exact ⟨h.notNull, h.end_eq, htotal ▸ h.blockEnd_eq, htotal ▸ h.small,
    by rw [htotal]; exact Memory.load_fill_part h.held hfit, htotal ▸ h.owned⟩

/-- `iIncSize` is how far the copy reaches beyond the end. -/
theorem toNat_incSize {a n : UInt64} (hsize : p.size.toNat < 2 ^ 63) (hn : n.toNat < 2 ^ 63)
    (ha : a.toNat ≤ p.size.toNat + n.toNat) :
    (p.incSize a).toUInt64.toNat = a.toNat - p.size.toNat := by
  have hsub := toNat_sub_cases a p.size
  unfold incSize
  simp only [toInt64_neg_iff]
  by_cases hle : p.size.toNat ≤ a.toNat
  · rw [if_pos hle] at hsub
    rw [if_neg (by omega), UInt64.toUInt64_toInt64, hsub]
  · rw [if_neg hle] at hsub
    have hzero : ((0 : Int64).toUInt64).toNat = 0 := rfl
    rw [if_pos (by omega), hzero]
    omega

/-- **`Copy`**, from the block that `Resize` leaves on. -/
theorem copyBy_spec (resize : UInt64 → Pointers → Memory → Option (Int × Pointers × Memory))
    {iDestSize : UInt64} (h : Views p mem m) (hdest : pDestBuffer.toNat = p.begin_.toNat + dest)
    (hd : dest ≤ m.size) (hn : iSize.toNat < 2 ^ 63) (hsum : iDestSize.toNat = dest + iSize.toNat)
    (hroom : (if p.totalSpace < iDestSize then resize iDestSize p mem else some (0, p, mem)) =
      some (0, p₁, mem₁))
    (h₁ : Views p₁ mem₁ m₁) (hsize : m₁.size = m.size) (hfit : dest + iSize.toNat ≤ m₁.totalSpace)
    (hr : Reads p₁ mem₁ m₁ (pSrcBuffer - p.begin_).toInt64 pSrcBuffer iSize w) :
    ∃ p' m', copyBy resize pDestBuffer pSrcBuffer iSize p mem =
        some (0, p', mem₁.fill (p₁.begin_.toNat + dest) w) ∧ p'.begin_ = p₁.begin_ ∧
      Views p' (mem₁.fill (p₁.begin_.toNat + dest) w) m' ∧
      m'.contents = m₁.contents.put dest w := by
  have hlen := hr.length
  have hend := h.end_eq
  have hsmall := h.small
  have hle := h.size_le
  have hin : ¬ (pDestBuffer < p.begin_ ∨ p.end_ < pDestBuffer) := by
    rw [UInt64.lt_iff_toNat_lt, UInt64.lt_iff_toNat_lt]
    omega
  have hoff : (pDestBuffer - p.begin_).toInt64.toUInt64.toNat = dest := by
    rw [UInt64.toUInt64_toInt64, UInt64.toNat_sub_of_le _ _ (UInt64.le_iff_toNat_le.mpr (by omega))]
    omega
  have hsum' : (pDestBuffer - p.begin_).toInt64.toUInt64 + iSize = iDestSize := by
    rw [← UInt64.toNat_inj, UInt64.toNat_add, hoff, Nat.mod_eq_of_lt (by omega), hsum]
  have hinc : (p.incSize iDestSize).toUInt64.toNat = dest + iSize.toNat - m.size := by
    rw [toNat_incSize (n := iSize) (by rw [h.toNat_size]; omega) hn
      (by rw [h.toNat_size]; omega), hsum, h.toNat_size]
  obtain ⟨m', hadd, hc⟩ := MemBlock.contents_put (hsize.symm ▸ hd) (by rw [hlen]; exact hfit)
  rw [hlen, hsize, ← hinc] at hadd
  obtain ⟨p', hp', hbegin, hv⟩ := (h₁.fill (by rw [hlen]; exact hfit)).addSpace_some hadd
  refine ⟨p', m', ?_, hbegin, hv, hc⟩
  unfold copyBy
  rw [if_neg hin]
  simp only [hsum', hroom]
  rw [if_neg (by decide), hr.move h₁ hoff hfit, Option.map_some, hp']

/-! ## Allocating -/

/-- The allocator has `k` bytes. -/
structure Grants (g : Grant) (k : Nat) (mem : Memory) : Prop where
  notNull : g.address ≠ 0
  fits : g.address.toNat + k < 2 ^ 64
  small : k < 2 ^ 63
  fresh : mem.Fresh g.address.toNat k

/-- Everything allocated outside the block is as it was, and is outside the new one. -/
def Untouched (p : Pointers) (mem : Memory) (p' : Pointers) (mem' : Memory) : Prop :=
  ∀ q n bs, mem.load q n = some bs → Apart q n p.begin_.toNat p.totalSpace.toNat →
    mem'.load q n = some bs ∧ Apart q n p'.begin_.toNat p'.totalSpace.toNat

/-- **`MemBlock(iSize)`**. -/
theorem construct_spec (hg : Grants g iSize.toNat mem) :
    ∃ p m, construct g iSize mem =
        some (p, mem.alloc g.address.toNat iSize.toNat g.junk) ∧
      p.begin_ = g.address ∧ p.end_ = g.address ∧ m.size = 0 ∧
      Views p (mem.alloc g.address.toNat iSize.toNat g.junk) m ∧
      m.contents = Bounded.empty iSize.toNat := by
  obtain ⟨blk, hblk⟩ : ∃ blk, (mem.alloc g.address.toNat iSize.toNat g.junk).load
      g.address.toNat iSize.toNat = some blk := Memory.load_alloc
  have hlen := Memory.length_load hblk
  have hsum : (g.address + iSize).toNat = g.address.toNat + iSize.toNat := by
    rw [UInt64.toNat_add, Nat.mod_eq_of_lt hg.fits]
  refine ⟨⟨g.address, g.address, g.address + iSize⟩, ⟨blk, 0, Nat.zero_le _⟩, ?_, rfl, rfl, rfl,
    ⟨hg.notNull, rfl, ?_, ?_, ?_, ?_⟩, ?_⟩
  · unfold construct create Memory.new
    rw [if_neg hg.notNull, if_pos hg.fresh]
    simp only [Option.map_some]
    rw [if_neg hg.notNull]
  · rw [hsum, MemBlock.totalSpace, hlen]
  · rw [MemBlock.totalSpace, hlen]
    exact hg.small
  · show Memory.load _ g.address.toNat blk.length = some blk
    rw [hlen]
    exact hblk
  · show _ = some blk.length
    rw [hlen]
    exact Memory.block_alloc
  · ext1
    · exact List.take_zero (l := blk)
    · exact hlen

/-- Another block is given back. -/
theorem Views.free {q n : Nat} (h : Views p mem m) (hap : Apart p.begin_.toNat m.totalSpace q n)
    (hne : p.begin_.toNat ≠ q) : Views p (mem.free q n) m := by
  refine ⟨h.notNull, h.end_eq, h.blockEnd_eq, h.small, Memory.load_free_apart h.held hap, ?_⟩
  show Function.update mem.block q none p.begin_.toNat = _
  rw [Function.update_of_ne hne]
  exact h.owned

/-- A new block, and the contents of another one appended to it. -/
theorem Views.append_new {n : UInt64} (h : Views p mem m) (hg : Grants g iSize.toNat mem)
    (hn : n.toNat = m.size) (hfit : m.size ≤ iSize.toNat)
    (resize : UInt64 → Pointers → Memory → Option (Int × Pointers × Memory)) :
    ∃ tmp p' m', construct g iSize mem =
        some (tmp, mem.alloc g.address.toNat iSize.toNat g.junk) ∧ tmp.begin_ ≠ 0 ∧
      tmp.appendBy resize p.begin_ n (mem.alloc g.address.toNat iSize.toNat g.junk) =
        some (0, p', (mem.alloc g.address.toNat iSize.toNat g.junk).fill g.address.toNat m.data) ∧
      p'.begin_ = g.address ∧
      Views p' ((mem.alloc g.address.toNat iSize.toNat g.junk).fill g.address.toNat m.data) m' ∧
      m'.data = m.data ∧ m'.totalSpace = iSize.toNat := by
  obtain ⟨tmp, mt, htmp, hbegin, hend, hempty, hvt, hct⟩ := construct_spec hg
  have htotal : mt.totalSpace = iSize.toNat := congrArg Bounded.capacity hct
  have hsmall := hg.small
  -- the contents are outside the new block, which is fresh
  have hapart := hg.fresh.apart h.load_data
  have hreads : Reads tmp (mem.alloc g.address.toNat iSize.toNat g.junk) mt
      (p.begin_ - tmp.begin_).toInt64 p.begin_ n m.data := by
    refine .outside ?_ ?_ ?_
    · rintro ⟨-, hlt⟩
      rw [UInt64.lt_iff_toNat_lt, hvt.toNat_size, hempty] at hlt
      exact Nat.not_lt_zero _ hlt
    · rw [hn]
      exact Memory.load_alloc_apart hg.fresh h.load_data
    · rw [hn, hbegin, htotal]
      exact hapart
  have hroom : ¬ tmp.totalSpace < n := by
    rw [UInt64.lt_iff_toNat_lt, hvt.toNat_totalSpace, hn, htotal]
    omega
  have hdest : tmp.end_.toNat = tmp.begin_.toNat + 0 := by rw [hend, hbegin, Nat.add_zero]
  obtain ⟨p', m', hcopy, hp', hv', hc'⟩ := copyBy_spec resize hvt hdest (Nat.zero_le _)
    (by omega) (Nat.zero_add _).symm (if_neg hroom) hvt rfl (by rw [hn, htotal]; omega) hreads
  rw [hbegin, Nat.add_zero] at hcopy hv'
  refine ⟨tmp, p', m', htmp, hvt.notNull, hcopy, hp'.trans hbegin, hv', ?_, ?_⟩
  · rw [← MemBlock.items_contents, hc', hct]
    show ([] : Bytes).take 0 ++ m.data ++ ([] : Bytes).drop _ = m.data
    rw [List.drop_nil, List.append_nil]
    rfl
  · rw [← MemBlock.capacity_contents, hc', hct]
    show max iSize.toNat (0 + m.data.length) = _
    rw [MemBlock.length_data]
    omega

/-- **`Resize`** where the block is too small. -/
theorem Views.resize_grow (h : Views p mem m) (hk : m.totalSpace < iSize.toNat)
    (hg : Grants g iSize.toNat mem) (depth : Nat) :
    ∃ p' mem' m', resize g (depth + 1) iSize p mem = some (0, p', mem') ∧ Views p' mem' m' ∧
      m'.contents = m.contents.shrink iSize.toNat ∧ Untouched p mem p' mem' := by
  have hle := h.size_le
  have hmin : (min p.size iSize).toNat = m.size := by
    have hps := h.toNat_size
    have hlt : p.size ≤ iSize := UInt64.le_iff_toNat_le.mpr (by omega)
    rw [show min p.size iSize = p.size from if_pos hlt, hps]
  obtain ⟨tmp, p', m', htmp, hnull, happend, hp', hv', hdata, htotal⟩ :=
    h.append_new hg hmin (by omega) (resize g depth)
  have hapart := hg.fresh.apart h.held
  have hne : p.begin_.toNat ≠ g.address.toNat := by
    intro heq
    have hnone := hg.fresh.2
    rw [← heq, h.owned] at hnone
    cases hnone
  refine ⟨p', _, m', ?_, hv'.free (q := p.begin_.toNat) (n := m.totalSpace) ?_ ?_, ?_, ?_⟩
  · have howned : (mem.alloc g.address.toNat iSize.toNat g.junk).block p.begin_.toNat =
        some m.totalSpace := (Function.update_of_ne hne ..).trans h.owned
    unfold Pointers.resize
    rw [if_neg (by rw [UInt64.le_iff_toNat_le, h.toNat_totalSpace]; omega), htmp]
    simp only
    rw [if_neg hnull, happend]
    simp only
    rw [if_neg (by decide)]
    unfold destroy Memory.delete
    rw [if_neg h.notNull, Memory.block_fill, howned]
    rfl
  · rw [hp', htotal]
    unfold Apart at hapart ⊢
    omega
  · rw [hp']
    exact Ne.symm hne
  · ext1
    · show m'.data = m.data.take iSize.toNat
      rw [hdata, List.take_of_length_le (by rw [MemBlock.length_data]; omega)]
    · show m'.totalSpace = max m.totalSpace iSize.toNat
      omega
  · intro q n bs hload hap
    rw [h.toNat_totalSpace] at hap
    have hnew := hg.fresh.apart hload
    refine ⟨Memory.load_free_apart (Memory.load_fill_apart (Memory.load_alloc_apart hg.fresh hload)
      ?_) hap, ?_⟩
    · rw [MemBlock.length_data]
      unfold Apart at hnew ⊢
      omega
    · rw [hp', hv'.toNat_totalSpace, htotal]
      exact hnew

/-- **The constructor from another block.** -/
theorem Views.constructCopy (h : Views p mem m) (hg : Grants g m.totalSpace mem) (depth : Nat) :
    ∃ p' mem' m', Pointers.constructCopy g depth p mem = some (p', mem') ∧ Views p' mem' m' ∧
      m'.contents = m.contents := by
  rw [← h.toNat_totalSpace] at hg
  obtain ⟨tmp, p', m', htmp, hnull, happend, -, hv', hdata, htotal⟩ :=
    h.append_new hg h.toNat_size (by rw [h.toNat_totalSpace]; exact h.size_le) (resize g depth)
  refine ⟨p', _, m', ?_, hv', ?_⟩
  · unfold Pointers.constructCopy
    rw [htmp]
    simp only
    rw [if_neg hnull]
    unfold append
    rw [happend]
    rfl
  · ext1
    · exact hdata
    · exact htotal.trans h.toNat_totalSpace

/-! ## `Copy` -/

/-- Where the bytes of a `Copy` are: in the contents, or allocated outside the block. -/
inductive Source (p : Pointers) (mem : Memory) (m : MemBlock) (pSrcBuffer iSize : UInt64)
    (w : Bytes) : Prop
  | inside {off : Nat} (hp : pSrcBuffer.toNat = p.begin_.toNat + off)
      (hfit : off + iSize.toNat ≤ m.size) (hw : (m.data.drop off).take iSize.toNat = w)
  | outside (hload : mem.load pSrcBuffer.toNat iSize.toNat = some w)
      (hap : Apart pSrcBuffer.toNat iSize.toNat p.begin_.toNat m.totalSpace)

/-- The test of `Copy` finds out whether the source starts in the contents, although the offset is
signed and may have wrapped. -/
theorem Views.offset_iff (h : Views p mem m) (q : UInt64) :
    (0 ≤ (q - p.begin_).toInt64 ∧ (q - p.begin_).toInt64.toUInt64 < p.size) ↔
      p.begin_.toNat ≤ q.toNat ∧ q.toNat < p.begin_.toNat + m.size := by
  have hsub := toNat_sub_cases q p.begin_
  have hneg := toInt64_neg_iff (q - p.begin_)
  have hblock := h.blockEnd_eq
  have hlt := p.blockEnd_.toNat_lt
  have hsmall := h.small
  have hle := h.size_le
  rw [UInt64.toUInt64_toInt64, UInt64.lt_iff_toNat_lt, h.toNat_size, ← Int64.not_lt, hneg]
  split at hsub <;> omega

theorem Source.reads (h : Views p mem m) (hs : Source p mem m pSrcBuffer iSize w) :
    Reads p mem m (pSrcBuffer - p.begin_).toInt64 pSrcBuffer iSize w := by
  have hiff := h.offset_iff pSrcBuffer
  have hle := h.size_le
  by_cases hin : p.begin_.toNat ≤ pSrcBuffer.toNat ∧
      pSrcBuffer.toNat < p.begin_.toNat + m.size
  · have hoff : (pSrcBuffer - p.begin_).toInt64.toUInt64.toNat =
        pSrcBuffer.toNat - p.begin_.toNat := by
      rw [UInt64.toUInt64_toInt64, UInt64.toNat_sub_of_le _ _ (UInt64.le_iff_toNat_le.mpr hin.1)]
    cases hs with
    | inside hp hfit hw =>
      rename_i off
      have hoff' : (pSrcBuffer - p.begin_).toInt64.toUInt64.toNat = off := by omega
      exact .inside (hiff.mpr hin) (by omega) (by rw [hoff']; exact hw)
    | outside hload hap =>
      -- only an empty range starts in the contents and is apart from the block
      have hzero : iSize.toNat = 0 := by
        unfold Apart at hap
        omega
      refine .inside (hiff.mpr hin) (by omega) ?_
      rw [hzero] at hload ⊢
      exact Option.some.inj hload
  · cases hs with
    | inside hp hfit hw =>
      have hzero : iSize.toNat = 0 := by omega
      rw [hzero, List.take_zero] at hw
      exact .outside (fun hc => hin (hiff.mp hc)) (by rw [hzero, ← hw]; rfl) (.inl hzero)
    | outside hload hap => exact .outside (fun hc => hin (hiff.mp hc)) hload hap

/-- The source is found in the block that `Resize` leaves as well. -/
theorem Reads.carry (h : Views p mem m) (h₁ : Views p₁ mem₁ m₁) (hdata : m₁.data = m.data)
    (hun : Untouched p mem p₁ mem₁) (hr : Reads p mem m iSrcOffset pSrcBuffer iSize w) :
    Reads p₁ mem₁ m₁ iSrcOffset pSrcBuffer iSize w := by
  have hsize : m₁.size = m.size := by
    rw [← MemBlock.length_data, hdata, MemBlock.length_data]
  have hps : p₁.size = p.size := by rw [← UInt64.toNat_inj, h₁.toNat_size, h.toNat_size, hsize]
  cases hr with
  | inside hin hfit hw =>
    exact .inside (by rw [hps]; exact hin) (by rw [hsize]; exact hfit) (by rw [hdata]; exact hw)
  | outside hout hload hap =>
    rw [← h.toNat_totalSpace] at hap
    obtain ⟨hload', hap'⟩ := hun _ _ _ hload hap
    exact .outside (by rw [hps]; exact hout) hload' (by rw [← h₁.toNat_totalSpace]; exact hap')

/-- **`Copy`** from inside or outside, with or without a new block. -/
theorem Views.copy (h : Views p mem m) (hdest : pDestBuffer.toNat = p.begin_.toNat + dest)
    (hd : dest ≤ m.size) (hs : Source p mem m pSrcBuffer iSize w)
    (hg : m.totalSpace < dest + iSize.toNat → Grants g (dest + iSize.toNat) mem) (depth : Nat) :
    ∃ p' mem' m', Pointers.copy g (depth + 1) pDestBuffer pSrcBuffer iSize p mem =
        some (0, p', mem') ∧ Views p' mem' m' ∧ m'.contents = m.contents.put dest w := by
  have hr := hs.reads h
  have hlen := hr.length
  have hle := h.size_le
  have hsmall : dest + iSize.toNat < 2 ^ 63 := by
    by_cases hfull : m.totalSpace < dest + iSize.toNat
    · exact (hg hfull).small
    · have htotal := h.small
      omega
  have hn : iSize.toNat < 2 ^ 63 := by omega
  have hsum : (UInt64.ofNat (dest + iSize.toNat)).toNat = dest + iSize.toNat :=
    UInt64.toNat_ofNat_of_lt (by show _ < 2 ^ 64; omega)
  by_cases hfull : m.totalSpace < dest + iSize.toNat
  · obtain ⟨p₁, mem₁, m₁, hres, h₁, hc₁, hun⟩ :=
      h.resize_grow (by rw [hsum]; exact hfull) (by rw [hsum]; exact hg hfull) depth
    rw [hsum] at hc₁
    have hdata : m₁.data = m.data := by
      rw [← MemBlock.items_contents, hc₁,
        Bounded.items_shrink (by rw [MemBlock.items_contents, MemBlock.length_data]; omega)]
      rfl
    have htotal : m₁.totalSpace = max m.totalSpace (dest + iSize.toNat) :=
      congrArg Bounded.capacity hc₁
    obtain ⟨p', m', hcopy, -, h', hc'⟩ := copyBy_spec (Pointers.resize g (depth + 1)) h
      hdest hd hn hsum
      (by rw [if_pos (by rw [UInt64.lt_iff_toNat_lt, hsum, h.toNat_totalSpace]; exact hfull), hres])
      h₁ (by rw [← MemBlock.length_data, hdata, MemBlock.length_data]) (by omega)
      (hr.carry h h₁ hdata hun)
    refine ⟨p', _, m', hcopy, h', ?_⟩
    rw [hc']
    ext1
    · rw [Bounded.items_put, Bounded.items_put, MemBlock.items_contents, hdata]
      rfl
    · show max m₁.totalSpace _ = max m.totalSpace _
      rw [htotal, hlen, max_assoc, max_self]
  · obtain ⟨p', m', hcopy, -, h', hc'⟩ := copyBy_spec (Pointers.resize g (depth + 1)) h
      hdest hd hn hsum
      (if_neg (by rw [UInt64.lt_iff_toNat_lt, hsum, h.toNat_totalSpace]; exact hfull))
      h rfl (by omega) hr
    exact ⟨p', _, m', hcopy, h', hc'⟩

end Pointers

end Domq.Base

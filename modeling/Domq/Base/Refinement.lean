import Domq.Base.Pointers
import Domq.Lib.Simulation

/-!
# `MemBlock` is a list with a capacity

Whole lives of a block: it is built by one of the two constructors, and then any calls follow, with
other code running in between.

* `Admissible`: the allocator has what a call needs (which is what keeps sizes below `2^63`), and
  the source of a copy is allocated and lies in the contents or outside the block.
* `Evolves` is what a call does to a list with a capacity. The bytes copied are those that memory
  holds at the source when the call is made.

Result: `refines_bounded`. No admissible sequence of calls does anything undefined; it returns what
the list returns and leaves the contents and the capacity that the list has.
-/

namespace Domq.Base.Block

open Domq.Lib Domq.Lib.Simulation Pointers

inductive Call
  | append (pSrcBuffer iSize : UInt64)
  /-- `Copy` to `_begin + iDestOffset` -/
  | copy (iDestOffset pSrcBuffer iSize : UInt64)
  | resize (iSize : UInt64)
  | addSpace (iSize : UInt64)
  | reduceSpace (iSize : UInt64)
  | clear

/-- A call, the memory it finds, and what the allocator does if it is asked. -/
structure Event where
  call : Call
  mem : Memory
  grant : Grant

/-- A block, and the memory after the last call. -/
structure State where
  block : Pointers
  mem : Memory

/-- The bytes between `_begin` and `_end`. -/
def State.contents (s : State) : Option Bytes :=
  s.mem.load s.block.begin_.toNat s.block.size.toNat

def State.of (x : Int × Pointers × Memory) : Int × State := (x.1, ⟨x.2.1, x.2.2⟩)

/-- One call; `none` is undefined behaviour. -/
def step (depth : Nat) (s : State) (e : Event) : Option (Int × State) :=
  match e.call with
  | .append q n => (s.block.append e.grant depth q n e.mem).map State.of
  | .copy d q n => (s.block.copy e.grant depth (s.block.begin_ + d) q n e.mem).map State.of
  | .resize k => (s.block.resize e.grant depth k e.mem).map State.of
  | .addSpace k => some ((s.block.addSpace k).1, ⟨(s.block.addSpace k).2, e.mem⟩)
  | .reduceSpace k => some ((s.block.reduceSpace k).1, ⟨(s.block.reduceSpace k).2, e.mem⟩)
  | .clear => some (0, ⟨s.block.clear, e.mem⟩)

/-! ## What a list does -/

/-- The bytes that memory holds at the source. -/
def Event.bytes (e : Event) (pSrcBuffer iSize : UInt64) : Bytes :=
  (e.mem.load pSrcBuffer.toNat iSize.toNat).getD []

/-- What a call does to a list with a capacity, and what it returns. -/
def Evolves (t : Bounded UInt8) (e : Event) (r : Int) (t' : Bounded UInt8) : Prop :=
  match e.call with
  | .append q n => r = 0 ∧ t' = t.put t.items.length (e.bytes q n)
  | .copy d q n =>
    if d.toNat ≤ t.items.length then r = 0 ∧ t' = t.put d.toNat (e.bytes q n)
    else r = -1 ∧ t' = t
  | .resize k => r = 0 ∧ t' = t.shrink k.toNat
  | .addSpace k => if k.toNat ≤ t.free then r = 0 ∧ t.Grows k.toNat t' else r = -1 ∧ t' = t
  | .reduceSpace k =>
    if k.toNat ≤ t.items.length then r = 0 ∧ t' = t.dropEnd k.toNat else r = -1 ∧ t' = t
  | .clear => r = 0 ∧ t' = t.clear

/-! ## What the caller and the allocator owe -/

/-- Other code leaves the contents of the block alone, and its space allocated. -/
structure Kept (p : Pointers) (mem mem' : Memory) : Prop where
  contents : ∀ a, p.begin_.toNat ≤ a → a < p.end_.toNat → mem'.byte a = mem.byte a
  space : ∀ a, p.begin_.toNat ≤ a → a < p.blockEnd_.toNat → (mem'.byte a).isSome
  owned : mem'.block p.begin_.toNat = mem.block p.begin_.toNat

/-- The source of a copy is allocated, and is in the contents or outside the block. -/
structure Readable (p : Pointers) (mem : Memory) (pSrcBuffer iSize : UInt64) : Prop where
  allocated : (mem.load pSrcBuffer.toNat iSize.toNat).isSome
  place : (p.begin_.toNat ≤ pSrcBuffer.toNat ∧ pSrcBuffer.toNat + iSize.toNat ≤ p.end_.toNat) ∨
    Apart pSrcBuffer.toNat iSize.toNat p.begin_.toNat p.totalSpace.toNat

/-- The space a call needs, the contents having `size` bytes. -/
def Call.needs (size : Nat) : Call → Nat
  | .append _ n => size + n.toNat
  | .copy d _ n => if d.toNat ≤ size then d.toNat + n.toNat else 0
  | .resize k => k.toNat
  | _ => 0

def Call.Reads (p : Pointers) (mem : Memory) : Call → Prop
  | .append q n => Readable p mem q n
  | .copy _ q n => Readable p mem q n
  | _ => True

structure Admissible (s : State) (e : Event) : Prop where
  kept : Kept s.block s.mem e.mem
  reads : e.call.Reads s.block e.mem
  grants : s.block.totalSpace.toNat < e.call.needs s.block.size.toNat →
    Grants e.grant (e.call.needs s.block.size.toNat) e.mem

/-- What a state looks like as a list with a capacity. -/
def Holds (s : State) (t : Bounded UInt8) : Prop := ∃ m, Views s.block s.mem m ∧ m.contents = t

/-- What the constructors leave: an empty block, or the contents of another one. -/
inductive Built (depth : Nat) : State → Bounded UInt8 → Prop
  | new {g : Grant} {iSize : UInt64} {mem mem' : Memory} {p : Pointers}
      (hg : Grants g iSize.toNat mem) (h : construct g iSize mem = some (p, mem')) :
      Built depth ⟨p, mem'⟩ (.empty iSize.toNat)
  | copied {g : Grant} {s : State} {t : Bounded UInt8} {mem' : Memory} {p : Pointers}
      (hs : Holds s t) (hg : Grants g t.capacity s.mem)
      (h : constructCopy g depth s.block s.mem = some (p, mem')) : Built depth ⟨p, mem'⟩ t

/-! ## One call -/

variable {p : Pointers} {mem mem' : Memory} {m : MemBlock} {s : State} {e : Event} {depth : Nat}
variable {t : Bounded UInt8}

/-- Other code has run. -/
theorem Kept.views (hk : Kept p mem mem') (h : Views p mem m) :
    ∃ m', Views p mem' m' ∧ m'.contents = m.contents := by
  have hle := h.size_le
  obtain ⟨blk, hblk⟩ : ∃ blk, mem'.load p.begin_.toNat m.totalSpace = some blk :=
    Memory.exists_load fun a hp ha => hk.space a hp (by rw [h.blockEnd_eq]; exact ha)
  have hlen := Memory.length_load hblk
  have hdata : blk.take m.size = m.data := by
    have hold : mem'.load p.begin_.toNat m.size = some m.data :=
      Memory.load_congr h.load_data fun a hp ha => hk.contents a hp (by rw [h.end_eq]; exact ha)
    rw [Memory.load_take hblk hle] at hold
    exact Option.some.inj hold
  refine ⟨⟨blk, m.size, by rw [hlen]; exact hle⟩, ⟨h.notNull, h.end_eq, ?_, ?_, ?_, ?_⟩, ?_⟩
  · rw [MemBlock.totalSpace, hlen]
    exact h.blockEnd_eq
  · rw [MemBlock.totalSpace, hlen]
    exact h.small
  · show mem'.load _ blk.length = some blk
    rw [hlen]
    exact hblk
  · show _ = some blk.length
    rw [hk.owned, h.owned, hlen]
  · ext1
    · exact hdata
    · exact hlen

/-- The source of a copy, as the specification of `Copy` wants it. -/
theorem Readable.source {q n : UInt64} (hr : Readable p e.mem q n) (h : Views p e.mem m) :
    Source p e.mem m q n (e.bytes q n) := by
  obtain ⟨bs, hbs⟩ := Option.isSome_iff_exists.mp hr.allocated
  have hbytes : e.bytes q n = bs := by
    unfold Event.bytes
    rw [hbs]
    rfl
  rw [hbytes]
  rcases hr.place with ⟨hlo, hhi⟩ | hap
  · rw [h.end_eq] at hhi
    have hq : p.begin_.toNat + (q.toNat - p.begin_.toNat) = q.toNat := Nat.add_sub_cancel' hlo
    have hfit : q.toNat - p.begin_.toNat + n.toNat ≤ m.size := by omega
    have hload := Memory.load_part h.load_data hfit
    rw [hq, hbs] at hload
    exact .inside hq.symm (by omega) (Option.some.inj hload).symm
  · rw [h.toNat_totalSpace] at hap
    exact .outside hbs hap

/-- Outside the contents nothing is copied. -/
theorem copy_outside (h : Views p mem m) (g : Grant) {d q n : UInt64} (hd : m.size < d.toNat) :
    p.copy g depth (p.begin_ + d) q n mem = some (-1, p, mem) := by
  have hend := h.end_eq
  have hsum := UInt64.toNat_add p.begin_ d
  have hlt := d.toNat_lt
  have hp := p.end_.toNat_lt
  unfold Pointers.copy copyBy
  rw [if_pos]
  rw [UInt64.lt_iff_toNat_lt, UInt64.lt_iff_toNat_lt]
  omega

/-- **One admissible call.** -/
theorem simulates (depth : Nat) : Simulates (step (depth + 1)) Admissible Evolves Holds := by
  rintro s t e ⟨m₀, h₀, rfl⟩ hok
  obtain ⟨m, h, hc⟩ := hok.kept.views h₀
  have hreads := hok.reads
  have hgrants := hok.grants
  rw [← hc]
  have hsize : s.block.size.toNat = m.size := h.toNat_size
  rw [hsize, h.toNat_totalSpace] at hgrants
  obtain ⟨call, mem, grant⟩ := e
  cases call with
  | append q n =>
    obtain ⟨p', mem', m', hcopy, h', hc'⟩ := h.copy h.end_eq (Nat.le_refl _)
      (hreads.source h) hgrants depth
    refine ⟨0, ⟨p', mem'⟩, _, ?_, ⟨rfl, ?_⟩, m', h', rfl⟩
    · exact congrArg (Option.map State.of) hcopy
    · rw [hc', MemBlock.length_contents]
  | copy d q n =>
    by_cases hd : d.toNat ≤ m.size
    · have hdest : (s.block.begin_ + d).toNat = s.block.begin_.toNat + d.toNat :=
        h.toNat_add (hd.trans h.size_le)
      simp only [Call.needs, if_pos hd] at hgrants
      obtain ⟨p', mem', m', hcopy, h', hc'⟩ := h.copy hdest hd (hreads.source h) hgrants depth
      refine ⟨0, ⟨p', mem'⟩, _, ?_, ?_, m', h', rfl⟩
      · exact congrArg (Option.map State.of) hcopy
      · show if d.toNat ≤ m.contents.items.length then _ else _
        rw [MemBlock.length_contents, if_pos hd]
        exact ⟨rfl, hc'⟩
    · refine ⟨-1, ⟨s.block, mem⟩, m.contents, ?_, ?_, m, h, rfl⟩
      · exact congrArg (Option.map State.of) (copy_outside h grant (Nat.lt_of_not_le hd))
      · show if d.toNat ≤ m.contents.items.length then _ else _
        rw [MemBlock.length_contents, if_neg hd]
        exact ⟨rfl, rfl⟩
  | resize k =>
    by_cases hk : k.toNat ≤ m.totalSpace
    · obtain ⟨p', hres, h'⟩ := h.resize_in_place hk grant depth
      exact ⟨0, ⟨p', mem⟩, _, congrArg (Option.map State.of) hres,
        ⟨rfl, MemBlock.contents_resize k.toNat m⟩, _, h', rfl⟩
    · obtain ⟨p', mem', m', hres, h', hc', -⟩ :=
        h.resize_grow (Nat.lt_of_not_le hk) (hgrants (Nat.lt_of_not_le hk)) depth
      exact ⟨0, ⟨p', mem'⟩, _, congrArg (Option.map State.of) hres, ⟨rfl, hc'⟩, m', h', rfl⟩
  | addSpace k =>
    cases hadd : m.addSpace k.toNat with
    | none =>
      refine ⟨-1, ⟨s.block, mem⟩, m.contents, ?_, ?_, m, h, rfl⟩
      · show some (_, State.mk _ _) = _
        rw [h.addSpace_none hadd]
      · have hfull := MemBlock.addSpace_eq_none_iff.mp hadd
        show if k.toNat ≤ m.contents.free then _ else _
        rw [MemBlock.free_contents, if_neg (Nat.not_le.mpr hfull)]
        exact ⟨rfl, rfl⟩
    | some m' =>
      obtain ⟨p', hp', -, h'⟩ := h.addSpace_some hadd
      refine ⟨0, ⟨p', mem⟩, m'.contents, ?_, ?_, m', h', rfl⟩
      · show some (_, State.mk _ _) = _
        rw [hp']
      · have hroom : ¬ m.freeSpace < k.toNat := by
          rw [← MemBlock.addSpace_eq_none_iff, hadd]
          exact Option.some_ne_none m'
        show if k.toNat ≤ m.contents.free then _ else _
        rw [MemBlock.free_contents, if_pos (Nat.not_lt.mp hroom)]
        exact ⟨rfl, MemBlock.contents_addSpace hadd⟩
  | reduceSpace k =>
    cases hred : m.reduceSpace k.toNat with
    | none =>
      refine ⟨-1, ⟨s.block, mem⟩, m.contents, ?_, ?_, m, h, rfl⟩
      · show some (_, State.mk _ _) = _
        rw [h.reduceSpace_none hred]
      · have hshort := MemBlock.reduceSpace_eq_none_iff.mp hred
        show if k.toNat ≤ m.contents.items.length then _ else _
        rw [MemBlock.length_contents, if_neg (Nat.not_le.mpr hshort)]
        exact ⟨rfl, rfl⟩
    | some m' =>
      obtain ⟨p', hp', h'⟩ := h.reduceSpace_some hred
      refine ⟨0, ⟨p', mem⟩, m'.contents, ?_, ?_, m', h', rfl⟩
      · show some (_, State.mk _ _) = _
        rw [hp']
      · have hlong : ¬ m.size < k.toNat := by
          rw [← MemBlock.reduceSpace_eq_none_iff, hred]
          exact Option.some_ne_none m'
        show if k.toNat ≤ m.contents.items.length then _ else _
        rw [MemBlock.length_contents, if_pos (Nat.not_lt.mp hlong)]
        exact ⟨rfl, MemBlock.contents_reduceSpace hred⟩
  | clear =>
    refine ⟨0, ⟨s.block.clear, mem⟩, _, rfl, ⟨rfl, ?_⟩, m.clear, h.clear, rfl⟩
    ext1
    · exact List.take_zero (l := m.block)
    · rfl

/-! ## Whole lives -/

theorem Built.holds (h : Built (depth + 1) s t) : Holds s t := by
  cases h with
  | new hg h =>
    obtain ⟨p', m, hp', -, -, -, hv, hc⟩ := construct_spec hg
    rw [hp'] at h
    cases h
    exact ⟨m, hv, hc⟩
  | copied hs hg h =>
    obtain ⟨m, hm, rfl⟩ := hs
    obtain ⟨p', mem'', m', hp', hv, hc⟩ := hm.constructCopy hg (depth + 1)
    rw [hp'] at h
    cases h
    exact ⟨m', hv, hc⟩

theorem Holds.contents (h : Holds s t) : s.contents = some t.items := by
  obtain ⟨m, hv, rfl⟩ := h
  unfold State.contents
  rw [hv.toNat_size]
  exact hv.load_data

theorem Holds.totalSpace (h : Holds s t) : s.block.totalSpace.toNat = t.capacity := by
  obtain ⟨m, hv, rfl⟩ := h
  exact hv.toNat_totalSpace

theorem Holds.size_le (h : Holds s t) : s.block.size ≤ s.block.totalSpace := by
  obtain ⟨m, hv, rfl⟩ := h
  rw [UInt64.le_iff_toNat_le, hv.toNat_size, hv.toNat_totalSpace]
  exact m.size_le

/-- **A block is a list with a capacity.** Every admissible sequence of calls on a block that was
built is defined to its end, and its results and the contents it leaves are those of a list. -/
theorem refines_bounded {es : List Event} (hb : Built (depth + 1) s t)
    (hes : Admitted (step (depth + 1)) Admissible es s) :
    ∃ rs s' t', Simulation.run (step (depth + 1)) es s = some (rs, s') ∧
      Trace Evolves t es rs t' ∧ s'.contents = some t'.items ∧
      s'.block.totalSpace.toNat = t'.capacity ∧ s'.block.size ≤ s'.block.totalSpace := by
  obtain ⟨rs, s', t', hrun, htrace, hholds⟩ :=
    Simulates.run (simulates depth) hb.holds hes
  exact ⟨rs, s', t', hrun, htrace, hholds.contents, hholds.totalSpace, hholds.size_le⟩

/-- Two bytes are allocated somewhere else. -/
def elsewhere : Memory := Memory.alloc ⟨fun _ => none, fun _ => none⟩ 100 2 fun a => UInt8.ofNat a

/-- A block of one byte, to which those two are appended. -/
def appended : Event where
  call := .append 100 2
  mem := elsewhere.alloc 8 1 fun _ => 0
  grant := ⟨16, fun _ => 0⟩

theorem appended_built : Built 1 ⟨⟨8, 8, 9⟩, appended.mem⟩ (.empty 1) := by
  have hg : Grants ⟨8, fun _ => 0⟩ (1 : UInt64).toNat elsewhere :=
    ⟨by decide, by decide, by decide, by decide⟩
  exact .new hg rfl

theorem appended_admissible : Admissible ⟨⟨8, 8, 9⟩, appended.mem⟩ appended := by
  refine ⟨⟨fun _ _ _ => rfl, fun a h₁ h₂ => ?_, rfl⟩, ⟨rfl, .inr (by decide)⟩, fun _ => ?_⟩
  · have ha : a = 8 := Nat.le_antisymm (Nat.le_of_lt_succ h₂) h₁
    subst ha
    rfl
  · exact ⟨by decide, by decide, by decide, by decide⟩

/-- The state after a call. -/
def after (s : State) (e : Event) (h : (step 1 s e).isSome) : State := ((step 1 s e).get h).2

theorem eq_after {s s' : State} {e : Event} {r : Int} (h : step 1 s e = some (r, s'))
    (hsome : (step 1 s e).isSome) : s' = after s e hsome := by
  simp [after, h]

/-- The two bytes, in a block of two bytes at 16. -/
def settled : State := after ⟨⟨8, 8, 9⟩, appended.mem⟩ appended rfl

/-- The block is made eight bytes long. -/
def resized : Event := ⟨.resize 8, settled.mem, ⟨24, fun _ => 0⟩⟩

def roomy : State := after settled resized rfl

/-- The two bytes are copied onto the second of them and the byte behind it. -/
def overlapping : Event := ⟨.copy 1 24 2, roomy.mem, ⟨40, fun _ => 0⟩⟩

/-- Nothing else has run. -/
theorem kept_self {p : Pointers} {mem : Memory}
    (h : ∀ a < p.blockEnd_.toNat, p.begin_.toNat ≤ a → (mem.byte a).isSome) : Kept p mem mem :=
  ⟨fun _ _ _ => rfl, fun a hlo hhi => h a hhi hlo, rfl⟩

theorem resized_admissible : Admissible settled resized where
  kept := kept_self (by decide +kernel)
  reads := trivial
  grants _ := ⟨by decide, by decide, by decide, by decide +kernel⟩

theorem overlapping_admissible : Admissible roomy overlapping where
  kept := kept_self (by decide +kernel)
  reads := ⟨by decide +kernel, .inl (by decide +kernel)⟩
  grants h := absurd h (by decide +kernel)

theorem refines_bounded_overlapping : ∃ rs s' t',
    Simulation.run (step 1) [appended, resized, overlapping] ⟨⟨8, 8, 9⟩, appended.mem⟩ =
      some (rs, s') ∧
    Trace Evolves (.empty 1) [appended, resized, overlapping] rs t' ∧
    s'.contents = some t'.items ∧ t'.items = [100, 100, 101] ∧
    s'.block.totalSpace.toNat = t'.capacity ∧ s'.block.size ≤ s'.block.totalSpace := by
  have hadm : Admitted (step 1) Admissible [appended, resized, overlapping]
      ⟨⟨8, 8, 9⟩, appended.mem⟩ := by
    refine ⟨appended_admissible, fun r s hs => ?_⟩
    rw [eq_after hs rfl]
    refine ⟨resized_admissible, fun r s hs => ?_⟩
    rw [eq_after hs rfl]
    exact ⟨overlapping_admissible, fun _ _ _ => trivial⟩
  obtain ⟨rs, s', t', hrun, htrace, hcontents, hspace, hsize⟩ :=
    refines_bounded appended_built hadm
  have hbytes : ((Simulation.run (step 1) [appended, resized, overlapping]
      ⟨⟨8, 8, 9⟩, appended.mem⟩).bind fun x => x.2.contents) = some [100, 100, 101] := by
    decide +kernel
  rw [hrun, Option.bind_some, hcontents] at hbytes
  exact ⟨rs, s', t', hrun, htrace, hcontents, Option.some.inj hbytes, hspace, hsize⟩

end Domq.Base.Block

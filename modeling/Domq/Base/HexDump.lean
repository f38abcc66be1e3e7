import Domq.Lib.Loop
import Domq.Lib.Text

/-!
# The hex dump

`Log::log_hex` (`base/log/log.cpp`). All rows are written into one `char msg_str[128]`, which keeps
the columns between them.

* `none` is an index out of range: of a digit of `chex` (`chex[16]` is its terminator and no digit),
  of a column of `msg_str`, of a byte of the data.
* A full row and the last one are one definition: the last row has `len % 16` bytes and fills the
  rest with blanks, a full row has 16 and nothing to fill. The last row is printed for a multiple of
  16 as well.
* `fprintf` prints the line up to its first NUL. `graph` is what `isgraph` answers for a byte in the
  locale of the program.

Results: `dump_spec` and `dump_eq_none`, what becomes of data with fewer than 2^20 bytes, whose last
row has a number of four digits, and of longer data; `IsDump.unique`: a dump determines the data.
-/

namespace Domq.Base.HexDump

open Domq.Lib

/-- `chex`, at one of its digits. -/
def chex (i : Nat) : Option UInt8 := (ascii "0123456789ABCDEF")[i]?

/-- `msg_str`. -/
abbrev Line := Nat → UInt8

/-- `msg_str[c] = v`. -/
def put (c : Nat) (v : UInt8) (msg : Line) : Option Line :=
  if c < 128 then some (Function.update msg c v) else none

/-- `msg_str[c] = chex[i]`. -/
def putDigit (c i : Nat) (msg : Line) : Option Line := (chex i).bind fun v => put c v msg

/-- The columns of a row that stay: `k` is moved on as in the loops that fill the others. -/
def gapStep (j : Nat) (s : Nat × Line) : Option (Nat × Line) := do
  let (k, msg) := s
  let (k, msg) ← if j &&& 0x03 = 0 then (put (k + 1) 32 msg).map (k + 1, ·) else some (k, msg)
  let msg ← put (k + 3) 32 msg
  return (k + 3, msg)

/-- The line before the first row. -/
def blankLine : Option Line := do
  let msg ← put 0 91 fun _ => 0
  let msg ← put 5 48 msg
  let msg ← put 6 93 msg
  let msg ← put 59 32 msg
  let msg ← put 60 124 msg
  let msg ← put 77 124 msg
  let msg ← put 78 0 msg
  let (_, msg) ← loop gapStep 16 (6, msg)
  return msg

/-- `msg_str[1]` to `msg_str[4]`, for row `i`. -/
def putOffset (i : Nat) (msg : Line) : Option Line := do
  let msg ← putDigit 1 (i >>> 12) msg
  let msg ← putDigit 2 ((i >>> 8) &&& 0x0F) msg
  let msg ← putDigit 3 ((i >>> 4) &&& 0x0F) msg
  putDigit 4 (i &&& 0x0F) msg

/-- `memcpy(msg_str + 61, data + l, ..)`, byte by byte. -/
def copyStep (data : Bytes) (l j : Nat) (msg : Line) : Option Line := do
  let b ← data[l + j]?
  put (61 + j) b msg

/-- The variables of the loops over a row. -/
structure RowState where
  k : Nat
  l : Nat
  msg : Line

/-- `if ((j & 0x03) == 0) k++`. -/
def skipGap (j k : Nat) : Nat := if j &&& 0x03 = 0 then k + 1 else k

/-- The body of the loop over the bytes of a row. -/
def digitStep (graph : UInt8 → Bool) (data : Bytes) (j : Nat) (s : RowState) :
    Option RowState := do
  let k := skipGap j s.k
  let b ← data[s.l]?
  let msg ← putDigit k (b.toNat >>> 4) s.msg
  let msg ← putDigit (k + 1) (b.toNat &&& 0x0F) msg
  let msg ← if graph (msg (61 + j)) then some msg else put (61 + j) 46 msg
  return ⟨k + 3, s.l + 1, msg⟩

/-- The body of the loop over the columns behind the last byte. -/
def fillStep (j : Nat) (s : RowState) : Option RowState := do
  let k := skipGap j s.k
  let msg ← put k 32 s.msg
  let msg ← put (k + 1) 32 msg
  let msg ← put (61 + j) 32 msg
  return ⟨k + 3, s.l, msg⟩

/-- `fprintf(file_, "# %s\n", msg_str)`. -/
def printed (msg : Line) : Bytes :=
  ascii "# " ++ ((List.range 128).map msg).takeWhile (· ≠ 0) ++ ascii "\n"

/-- Row `i`, of `n` bytes: the line after it, and what is printed. -/
def row (graph : UInt8 → Bool) (data : Bytes) (i n : Nat) (msg : Line) : Option (Line × Bytes) := do
  let msg ← putOffset i msg
  let msg ← loop (copyStep data (i * 16)) n msg
  let s ← loop (digitStep graph data) n ⟨7, i * 16, msg⟩
  let s ← loop (fun j => fillStep (n + j)) (16 - n) s
  let msg ← put 127 0 s.msg
  return (msg, printed msg)

/-- A row, with the rows printed so far. -/
def rowStep (graph : UInt8 → Bool) (data : Bytes) (n i : Nat) (s : Line × List Bytes) :
    Option (Line × List Bytes) :=
  (row graph data i n s.1).map fun x => (x.1, s.2 ++ [x.2])

/-- The rows. -/
def dump (graph : UInt8 → Bool) (data : Bytes) : Option (List Bytes) := do
  let msg ← blankLine
  let s ← loop (rowStep graph data 16) (data.length / 16) (msg, [])
  let s ← rowStep graph data (data.length % 16) (data.length / 16) s
  return s.2

/-- `max_level_`, whether `file_` is open, and `enable_pack_print`. -/
structure Log where
  maxLevel : Int
  file : Bool
  enablePackPrint : Bool

def L_INFO : Int := 3

/-- `log_hex`: the result, and the rows printed. -/
def Log.logHex (graph : UInt8 → Bool) (log : Log) (data : Option Bytes) (level : Int) :
    Option (Int × List Bytes) :=
  match data with
  | none => some (-1, [])
  | some data =>
    if log.maxLevel < level ∨ log.file = false then some (-1, [])
    else if log.enablePackPrint = false ∧ L_INFO < level then some (-1, [])
    else (dump graph data).map fun rows => (0, rows)

/-- `log_hex` prints nothing at this level. -/
def Log.Refuses (log : Log) (level : Int) : Prop :=
  log.maxLevel < level ∨ log.file = false ∨ log.enablePackPrint = false ∧ L_INFO < level

instance (log : Log) (level : Int) : Decidable (log.Refuses level) :=
  inferInstanceAs (Decidable (_ ∨ _ ∨ _ ∧ _))

/-! ## What a dump shows -/

/-- The hexadecimal digit of a number below 16. -/
def upperDigit (n : Nat) : UInt8 := (ascii "0123456789ABCDEF").getD n 0

/-- The value of hexadecimal digits. -/
def hexValue (s : Bytes) : Option Nat :=
  s.foldl (fun v c => do return 16 * (← v) + (← (ascii "0123456789ABCDEF").idxOf? c)) (some 0)

/-- Column `c` of a printed row, which follows `# `. -/
def columnOf (r : Bytes) (c : Nat) : UInt8 := r.getD (2 + c) 0

/-- Where the two digits of byte `j` of a row are. -/
def column (j : Nat) : Nat := 8 + 3 * j + j / 4

/-- The two characters that stand for a byte, or for none. -/
def digits : Option UInt8 → UInt8 × UInt8
  | some b => (upperDigit (b.toNat / 16), upperDigit (b.toNat % 16))
  | none => (32, 32)

/-- Row `i` of the dump of `data`. -/
structure Shows (data : Bytes) (i : Nat) (r : Bytes) : Prop where
  offset : hexValue ((List.range 5).map fun c => columnOf r (1 + c)) = some (16 * i)
  bytes : ∀ j < 16, (columnOf r (column j), columnOf r (column j + 1)) = digits data[16 * i + j]?

/-- The rows of the dump of `data`. -/
structure IsDump (data : Bytes) (rows : List Bytes) : Prop where
  length : rows.length = data.length / 16 + 1
  shows : ∀ i r, rows[i]? = some r → Shows data i r

/-- Every digit is looked up in `chex` and every column is in the line, and what is printed, if
anything is, is a dump of the data. -/
def DumpsRight (graph : UInt8 → Bool) (log : Log) (data : Bytes) (level : Int) : Prop :=
  ∃ ret rows, log.logHex graph (some data) level = some (ret, rows) ∧
    (rows = [] ∧ ret = -1 ∨ IsDump data rows ∧ ret = 0)

/-! ## Digits and columns -/

theorem chex_of_lt : ∀ i < 16, chex i = some (upperDigit i) := by decide

theorem chex_eq_none {i : Nat} (h : 16 ≤ i) : chex i = none := List.getElem?_eq_none h

theorem upperDigit_ne_zero : ∀ i < 16, upperDigit i ≠ 0 := by decide

theorem idxOf_upperDigit : ∀ i < 16,
    (ascii "0123456789ABCDEF").idxOf? (upperDigit i) = some i := by decide

theorem put_of_lt {c : Nat} (h : c < 128) (v : UInt8) (msg : Line) :
    put c v msg = some (Function.update msg c v) := if_pos h

theorem putDigit_of_lt {c i : Nat} (hc : c < 128) (hi : i < 16) (msg : Line) :
    putDigit c i msg = some (Function.update msg c (upperDigit i)) := by
  rw [putDigit, chex_of_lt i hi, Option.bind_some, put_of_lt hc]

theorem digits_ne_zero (b : Option UInt8) : (digits b).1 ≠ 0 ∧ (digits b).2 ≠ 0 := by
  cases b with
  | none => exact ⟨by decide, by decide⟩
  | some b =>
    have hb := b.toNat_lt
    exact ⟨upperDigit_ne_zero _ (by omega), upperDigit_ne_zero _ (by omega)⟩

/-- The digits of a row are behind the offset and in front of the characters. -/
theorem column_bounds {j : Nat} (hj : j < 16) : 4 < column j ∧ column j + 1 < 61 := by
  unfold column
  omega

/-- The characters tell the byte. -/
theorem digits_injective : Function.Injective digits := by
  have hblank : ∀ i < 16, upperDigit i ≠ 32 := by decide
  have hinj : ∀ i < 16, ∀ j < 16, upperDigit i = upperDigit j → i = j := by decide
  intro a b h
  rcases a with - | a <;> rcases b with - | b
  · rfl
  · have hb := b.toNat_lt
    exact absurd (Prod.mk.inj h).1.symm (hblank _ (by omega))
  · have ha := a.toNat_lt
    exact absurd (Prod.mk.inj h).1 (hblank _ (by omega))
  · have ha := a.toNat_lt
    have hb := b.toNat_lt
    have hhi := hinj _ (by omega) _ (by omega) (Prod.mk.inj h).1
    have hlo := hinj _ (by omega) _ (by omega) (Prod.mk.inj h).2
    congr 1
    apply UInt8.toNat_inj.mp
    omega

/-- **The rows determine the data.** -/
theorem IsDump.unique {data data' : Bytes} {rows : List Bytes} (h : IsDump data rows)
    (h' : IsDump data' rows) : data = data' := by
  apply List.ext_getElem?
  intro n
  have hlen := h.length
  have hlen' := h'.length
  have hn : 16 * (n / 16) + n % 16 = n := Nat.div_add_mod n 16
  by_cases hrow : n / 16 < rows.length
  · have hr := List.getElem?_eq_getElem hrow
    have hb := (h.shows _ _ hr).bytes (n % 16) (Nat.mod_lt _ (by decide))
    have hb' := (h'.shows _ _ hr).bytes (n % 16) (Nat.mod_lt _ (by decide))
    rw [hn] at hb hb'
    exact digits_injective (hb.symm.trans hb')
  · rw [List.getElem?_eq_none (by omega), List.getElem?_eq_none (by omega)]

/-! ## The line -/

/-- The columns that every row leaves as they are. -/
def Fixed (c : Nat) : Prop :=
  c < 61 ∧ (c = 0 ∨ 4 < c) ∧ ∀ j < 16, c ≠ column j ∧ c ≠ column j + 1

instance (c : Nat) : Decidable (Fixed c) :=
  inferInstanceAs (Decidable (_ ∧ _ ∧ ∀ j < 16, _))

/-- The line between two rows. -/
structure Ruled (msg : Line) : Prop where
  zero : msg 5 = 48
  fixed : ∀ c, Fixed c → msg c ≠ 0

theorem blankLine_ruled : ∃ msg, blankLine = some msg ∧ Ruled msg := by
  refine ⟨_, rfl, by decide, fun c hc => ?_⟩
  have hall : ∀ c < 61, Fixed c → (blankLine.getD fun _ => 0) c ≠ 0 := by decide
  exact hall c hc.1 hc

theorem and_three (n : Nat) : n &&& 0x03 = n % 4 := Nat.and_two_pow_sub_one_eq_mod n 2

theorem and_fifteen (n : Nat) : n &&& 0x0F = n % 16 := Nat.and_two_pow_sub_one_eq_mod n 4

/-- The four digits of the row number. -/
theorem putOffset_spec {i : Nat} (hi : i < 65536) (msg : Line) :
    ∃ msg', putOffset i msg = some msg' ∧ (∀ c, c = 0 ∨ 4 < c → msg' c = msg c) ∧
      msg' 1 = upperDigit (i / 4096) ∧ msg' 2 = upperDigit (i / 256 % 16) ∧
      msg' 3 = upperDigit (i / 16 % 16) ∧ msg' 4 = upperDigit (i % 16) := by
  have h12 : i >>> 12 = i / 4096 := Nat.shiftRight_eq_div_pow i 12
  have h8 : i >>> 8 = i / 256 := Nat.shiftRight_eq_div_pow i 8
  have h4 : i >>> 4 = i / 16 := Nat.shiftRight_eq_div_pow i 4
  have heq : putOffset i msg = some (Function.update (Function.update (Function.update
      (Function.update msg 1 (upperDigit (i / 4096))) 2 (upperDigit (i / 256 % 16)))
      3 (upperDigit (i / 16 % 16))) 4 (upperDigit (i % 16))) := by
    unfold putOffset
    rw [h12, h8, h4, and_fifteen, and_fifteen, and_fifteen]
    simp only [Option.bind_eq_bind]
    rw [putDigit_of_lt (by decide) (by omega), Option.bind_some,
      putDigit_of_lt (by decide) (Nat.mod_lt _ (by decide)), Option.bind_some,
      putDigit_of_lt (by decide) (Nat.mod_lt _ (by decide)), Option.bind_some,
      putDigit_of_lt (by decide) (Nat.mod_lt _ (by decide))]
  refine ⟨_, heq, fun c hc => ?_, by simp [Function.update], by simp [Function.update],
    by simp [Function.update], by simp [Function.update]⟩
  rw [Function.update_of_ne (by omega), Function.update_of_ne (by omega),
    Function.update_of_ne (by omega), Function.update_of_ne (by omega)]

/-- The row number has no fifth digit. -/
theorem putOffset_eq_none {i : Nat} (hi : 65536 ≤ i) (msg : Line) : putOffset i msg = none := by
  have h12 : i >>> 12 = i / 4096 := Nat.shiftRight_eq_div_pow i 12
  unfold putOffset
  rw [h12, putDigit, chex_eq_none (by omega)]
  rfl

/-! ## A row -/

/-- The first `j` bytes of row `i` are written, over the line `msg`. -/
structure Written (data : Bytes) (i : Nat) (msg : Line) (j : Nat) (s : RowState) : Prop where
  k : s.k = 7 + 3 * j + (j + 3) / 4
  bytes : ∀ j' < j, (s.msg (column j'), s.msg (column j' + 1)) = digits data[16 * i + j']?
  others : ∀ c < 61, (∀ j' < j, c ≠ column j' ∧ c ≠ column j' + 1) → s.msg c = msg c

variable {graph : UInt8 → Bool} {data : Bytes} {i j n : Nat} {msg : Line} {s : RowState}

theorem Written.skipGap_k (h : Written data i msg j s) : skipGap j s.k = column j := by
  unfold skipGap column
  rw [h.k, and_three]
  split <;> omega

/-- The two characters of the next byte are written. -/
theorem Written.next (h : Written data i msg j s) (hj : j < 16) {l : Nat} {msg' : Line}
    (hmsg : ∀ c < 61, msg' c = Function.update (Function.update s.msg (column j)
      (digits data[16 * i + j]?).1) (column j + 1) (digits data[16 * i + j]?).2 c) :
    Written data i msg (j + 1) ⟨column j + 3, l, msg'⟩ := by
  have hcol : ∀ j' < j, column j' + 1 < column j := fun j' hj' => by
    unfold column
    omega
  have hlt := (column_bounds hj).2
  refine ⟨?_, fun j' hj' => ?_, fun c hc hne => ?_⟩
  · unfold column
    show 8 + 3 * j + j / 4 + 3 = _
    omega
  · show (msg' _, msg' _) = _
    rcases Nat.lt_succ_iff_lt_or_eq.mp hj' with hj' | rfl
    · have hlo := hcol j' hj'
      rw [hmsg _ (by omega), hmsg _ (by omega), Function.update_of_ne (by omega),
        Function.update_of_ne (by omega), Function.update_of_ne (by omega),
        Function.update_of_ne (by omega)]
      exact h.bytes j' hj'
    · rw [hmsg _ (by omega), hmsg _ hlt, Function.update_of_ne (by omega), Function.update_self,
        Function.update_self]
  · obtain ⟨h₁, h₂⟩ := hne j (Nat.lt_succ_self j)
    show msg' c = msg c
    rw [hmsg c hc, Function.update_of_ne h₂, Function.update_of_ne h₁]
    exact h.others c hc fun j' hj' => hne j' (Nat.lt_succ_of_lt hj')

theorem digitStep_spec (h : Written data i msg j s) (hl : s.l = i * 16 + j) (hj : j < 16)
    (hdata : i * 16 + j < data.length) :
    ∃ s', digitStep graph data j s = some s' ∧ Written data i msg (j + 1) s' ∧
      s'.l = i * 16 + (j + 1) := by
  have hcol := h.skipGap_k
  have hlt := (column_bounds hj).2
  obtain ⟨b, hb⟩ : ∃ b, data[s.l]? = some b :=
    ⟨_, List.getElem?_eq_getElem (by omega : s.l < data.length)⟩
  have hbyte := b.toNat_lt
  have hdigits : digits data[16 * i + j]? =
      (upperDigit (b.toNat / 16), upperDigit (b.toNat % 16)) := by
    rw [show 16 * i + j = s.l by omega, hb]
    rfl
  have hshift : b.toNat >>> 4 = b.toNat / 16 := Nat.shiftRight_eq_div_pow _ 4
  simp only [digitStep, hcol, hb, Option.bind_eq_bind, Option.bind_some]
  rw [hshift, and_fifteen, putDigit_of_lt (by omega) (by omega), Option.bind_some,
    putDigit_of_lt (by omega) (Nat.mod_lt _ (by decide)), Option.bind_some]
  split
  · refine ⟨_, rfl, h.next hj fun c _ => ?_, by simp only; omega⟩
    rw [hdigits]
  · rw [put_of_lt (by omega)]
    refine ⟨_, rfl, h.next hj fun c hc => ?_, by simp only; omega⟩
    rw [Function.update_of_ne (by omega), hdigits]

theorem fillStep_spec (h : Written data i msg j s) (hj : j < 16)
    (hdata : data.length ≤ 16 * i + j) :
    ∃ s', fillStep j s = some s' ∧ Written data i msg (j + 1) s' := by
  have hcol := h.skipGap_k
  have hlt := (column_bounds hj).2
  have hdigits : digits data[16 * i + j]? = (32, 32) := by
    rw [List.getElem?_eq_none hdata]
    rfl
  simp only [fillStep, hcol, Option.bind_eq_bind]
  rw [put_of_lt (by omega), Option.bind_some, put_of_lt (by omega), Option.bind_some,
    put_of_lt (by omega)]
  refine ⟨_, rfl, h.next hj fun c hc => ?_⟩
  rw [Function.update_of_ne (by omega), hdigits]

theorem copyStep_spec {msg₀ : Line} (h : ∀ c < 61, msg c = msg₀ c) (hj : j < 16)
    (hdata : i * 16 + j < data.length) :
    ∃ msg', copyStep data (i * 16) j msg = some msg' ∧ ∀ c < 61, msg' c = msg₀ c := by
  unfold copyStep
  rw [List.getElem?_eq_getElem hdata]
  simp only [Option.bind_eq_bind, Option.bind_some]
  rw [put_of_lt (by omega)]
  refine ⟨_, rfl, fun c hc => ?_⟩
  rw [Function.update_of_ne (by omega)]
  exact h c hc

/-- What is printed of a line without a NUL in front of the characters. -/
theorem columnOf_printed (h : ∀ c < 61, msg c ≠ 0) {c : Nat} (hc : c < 61) :
    columnOf (printed msg) c = msg c := by
  have hrange : List.range 128 = List.range 61 ++ (List.range 67).map (61 + ·) := by
    rw [← List.range_add]
  have hall : ∀ v ∈ (List.range 61).map msg, (decide (v ≠ 0)) = true := by
    intro v hv
    obtain ⟨c, hc, rfl⟩ := List.mem_map.mp hv
    simpa using h c (List.mem_range.mp hc)
  unfold columnOf printed
  rw [hrange, List.map_append, List.takeWhile_append_of_pos hall, List.append_assoc,
    List.append_assoc, List.getD_eq_getElem?_getD,
    List.getElem?_append_right (by show 2 ≤ 2 + c; omega)]
  show ((List.range 61).map msg ++ _)[2 + c - 2]?.getD 0 = _
  rw [Nat.add_sub_cancel_left, List.getElem?_append_left (by simpa using hc)]
  simp [hc]

/-- The line of row `i`. -/
structure Filled (data : Bytes) (i : Nat) (msg : Line) : Prop where
  offset : msg 1 = upperDigit (i / 4096) ∧ msg 2 = upperDigit (i / 256 % 16) ∧
    msg 3 = upperDigit (i / 16 % 16) ∧ msg 4 = upperDigit (i % 16)
  bytes : ∀ j < 16, (msg (column j), msg (column j + 1)) = digits data[16 * i + j]?

/-- Nothing in front of the characters ends the string. -/
theorem Filled.ne_zero (h : Filled data i msg) (hr : Ruled msg) (hi : i < 65536) :
    ∀ c < 61, msg c ≠ 0 := by
  intro c hc
  obtain ⟨h₁, h₂, h₃, h₄⟩ := h.offset
  by_cases hfix : Fixed c
  · exact hr.fixed c hfix
  by_cases hoff : c = 0 ∨ 4 < c
  · have hex : ∃ j < 16, c = column j ∨ c = column j + 1 := by
      by_contra hne
      push Not at hne
      exact hfix ⟨hc, hoff, hne⟩
    obtain ⟨j, hj, hcol⟩ := hex
    obtain ⟨hhi, hlo⟩ := Prod.mk.inj (h.bytes j hj)
    rcases hcol with rfl | rfl
    · rw [hhi]
      exact (digits_ne_zero _).1
    · rw [hlo]
      exact (digits_ne_zero _).2
  · obtain rfl | rfl | rfl | rfl : c = 1 ∨ c = 2 ∨ c = 3 ∨ c = 4 := by omega
    · rw [h₁]
      exact upperDigit_ne_zero _ (by omega)
    · rw [h₂]
      exact upperDigit_ne_zero _ (by omega)
    · rw [h₃]
      exact upperDigit_ne_zero _ (by omega)
    · rw [h₄]
      exact upperDigit_ne_zero _ (by omega)

/-- Four digits and `0`. -/
theorem hexValue_offset (hi : i < 65536) :
    hexValue [upperDigit (i / 4096), upperDigit (i / 256 % 16), upperDigit (i / 16 % 16),
      upperDigit (i % 16), 48] = some (16 * i) := by
  have hzero : (ascii "0123456789ABCDEF").idxOf? 48 = some 0 := by decide
  simp only [hexValue, List.foldl_cons, List.foldl_nil]
  rw [idxOf_upperDigit _ (by omega), idxOf_upperDigit _ (by omega), idxOf_upperDigit _ (by omega),
    idxOf_upperDigit _ (by omega), hzero]
  show some _ = some _
  congr 1
  omega

theorem Filled.shows (h : Filled data i msg) (hr : Ruled msg) (hi : i < 65536) :
    Shows data i (printed msg) := by
  have hcol : ∀ c < 61, columnOf (printed msg) c = msg c := fun c hc =>
    columnOf_printed (h.ne_zero hr hi) hc
  obtain ⟨h₁, h₂, h₃, h₄⟩ := h.offset
  refine ⟨?_, fun j hj => ?_⟩
  · have hrange : List.range 5 = [0, 1, 2, 3, 4] := rfl
    simp only [hrange, List.map_cons, List.map_nil]
    rw [hcol _ (by decide), hcol _ (by decide), hcol _ (by decide), hcol _ (by decide),
      hcol _ (by decide), h₁, h₂, h₃, h₄, hr.zero]
    exact hexValue_offset hi
  · have hlt := (column_bounds hj).2
    rw [hcol _ (by omega), hcol _ hlt]
    exact h.bytes j hj

/-- The three loops of a row that copies `n` bytes: no byte comes after them, or there are
sixteen. -/
theorem loops_spec (graph : UInt8 → Bool) (msg : Line) (hn : n ≤ 16)
    (hdata : i * 16 + n ≤ data.length) (hrest : n = 16 ∨ data.length ≤ 16 * i + n) :
    ∃ msg₁ s₁ s₂, loop (copyStep data (i * 16)) n msg = some msg₁ ∧
      loop (digitStep graph data) n ⟨7, i * 16, msg₁⟩ = some s₁ ∧
      loop (fun j => fillStep (n + j)) (16 - n) s₁ = some s₂ ∧ Written data i msg 16 s₂ := by
  obtain ⟨msg₁, hcopy, hmsg⟩ := loop_inv (P := fun _ m => ∀ c < 61, m c = msg c)
    (f := copyStep data (i * 16)) (n := n) (b := msg) (fun c _ => rfl) fun j hj m hm =>
      copyStep_spec hm (by omega) (by omega)
  have hstart : Written data i msg 0 ⟨7, i * 16, msg₁⟩ :=
    ⟨rfl, fun j hj => absurd hj (Nat.not_lt_zero j), fun c hc _ => hmsg c hc⟩
  obtain ⟨s₁, hdigits, hw, -⟩ := loop_inv (f := digitStep graph data) (n := n)
    (P := fun j s => Written data i msg j s ∧ s.l = i * 16 + j) ⟨hstart, rfl⟩
    fun j hj s hs => digitStep_spec hs.1 hs.2 (by omega) (by omega)
  obtain ⟨s₂, hfill, hw⟩ := loop_inv (f := fun j => fillStep (n + j)) (n := 16 - n)
    (P := fun j s => Written data i msg (n + j) s) hw
    fun j hj s hs => fillStep_spec hs (by omega) (by omega)
  rw [Nat.add_sub_cancel' hn] at hw
  exact ⟨msg₁, s₁, s₂, hcopy, hdigits, hfill, hw⟩

/-- The end of a line is behind everything that a row writes. -/
theorem update_127 {c : Nat} (hc : c < 61) (msg : Line) : Function.update msg 127 0 c = msg c :=
  Function.update_of_ne (by omega) _ _

/-- The columns that stay are those of the line before. -/
theorem Written.ruled {msg₀ : Line} (hw : Written data i msg₀ 16 s) (hr : Ruled msg)
    (hkeep : ∀ c, c = 0 ∨ 4 < c → msg₀ c = msg c) : Ruled (Function.update s.msg 127 0) := by
  have hfixed : ∀ c, Fixed c → Function.update s.msg 127 0 c = msg c := fun c hc => by
    rw [update_127 hc.1, hw.others c hc.1 hc.2.2, hkeep c hc.2.1]
  refine ⟨(hfixed 5 (by decide)).trans hr.zero, fun c hc => ?_⟩
  rw [hfixed c hc]
  exact hr.fixed c hc

theorem Written.filled (hw : Written data i msg 16 s)
    (hoff : msg 1 = upperDigit (i / 4096) ∧ msg 2 = upperDigit (i / 256 % 16) ∧
      msg 3 = upperDigit (i / 16 % 16) ∧ msg 4 = upperDigit (i % 16)) :
    Filled data i (Function.update s.msg 127 0) := by
  -- columns 1 to 4 are no columns of bytes
  have hsmall : ∀ c < 5, Function.update s.msg 127 0 c = msg c := fun c hc => by
    rw [update_127 (by omega)]
    refine hw.others c (by omega) fun j hj => ?_
    have hcol := column_bounds hj
    omega
  refine ⟨?_, fun j hj => ?_⟩
  · rw [hsmall 1 (by decide), hsmall 2 (by decide), hsmall 3 (by decide), hsmall 4 (by decide)]
    exact hoff
  · have hcol := column_bounds hj
    rw [update_127 (by omega), update_127 hcol.2]
    exact hw.bytes j hj

/-- A row whose number has four digits. -/
theorem row_spec (graph : UInt8 → Bool) (hr : Ruled msg) (hi : i < 65536) (hn : n ≤ 16)
    (hdata : i * 16 + n ≤ data.length) (hrest : n = 16 ∨ data.length ≤ 16 * i + n) :
    ∃ msg', row graph data i n msg = some (msg', printed msg') ∧ Ruled msg' ∧
      Shows data i (printed msg') := by
  obtain ⟨msg₀, hoffset, hkeep, hoff⟩ := putOffset_spec hi msg
  obtain ⟨msg₁, s₁, s₂, hcopy, hdigits, hfill, hw⟩ :=
    loops_spec graph msg₀ hn hdata hrest
  have hput : put 127 0 s₂.msg = some (Function.update s₂.msg 127 0) :=
    put_of_lt (by decide) 0 s₂.msg
  have hr' := hw.ruled hr hkeep
  refine ⟨_, ?_, hr', (hw.filled hoff).shows hr' hi⟩
  simp only [row, hoffset, hcopy, hdigits, hfill, hput, Option.bind_eq_bind, Option.bind_some,
    Option.pure_def]

theorem row_eq_none (hi : 65536 ≤ i) : row graph data i n msg = none := by
  unfold row
  rw [putOffset_eq_none hi]
  rfl

/-! ## The dump -/

/-- The line between two rows, and the `i` rows printed so far. -/
structure Printed (data : Bytes) (i : Nat) (s : Line × List Bytes) : Prop where
  ruled : Ruled s.1
  length : s.2.length = i
  shows : ∀ i' r, s.2[i']? = some r → Shows data i' r

theorem rowStep_spec (graph : UInt8 → Bool) {s : Line × List Bytes} (h : Printed data i s)
    (hi : i < 65536) (hn : n ≤ 16) (hdata : i * 16 + n ≤ data.length)
    (hrest : n = 16 ∨ data.length ≤ 16 * i + n) :
    ∃ s', rowStep graph data n i s = some s' ∧ Printed data (i + 1) s' := by
  obtain ⟨msg, hrow, hr, hshows⟩ := row_spec graph h.ruled hi hn hdata hrest
  refine ⟨(msg, s.2 ++ [printed msg]), by rw [rowStep, hrow]; rfl, hr, by simp [h.length],
    fun i' r hget => ?_⟩
  rw [List.getElem?_append] at hget
  split at hget
  · exact h.shows i' r hget
  · rw [List.getElem?_singleton] at hget
    split at hget
    · have hlen := h.length
      obtain rfl : i' = i := by omega
      cases hget
      exact hshows
    · cases hget

/-- **Fewer than 2^20 bytes are dumped right.** -/
theorem dump_spec (graph : UInt8 → Bool) (h : data.length < 2 ^ 20) :
    ∃ rows, dump graph data = some rows ∧ IsDump data rows := by
  have hlen : 16 * (data.length / 16) + data.length % 16 = data.length :=
    Nat.div_add_mod data.length 16
  have hrem : data.length % 16 < 16 := Nat.mod_lt _ (by decide)
  obtain ⟨msg, hblank, hr⟩ := blankLine_ruled
  have hstart : Printed data 0 (msg, []) := ⟨hr, rfl, fun i' r hget => by cases hget⟩
  obtain ⟨s, hfull, hs⟩ := loop_inv (f := rowStep graph data 16) (n := data.length / 16)
    (P := Printed data) hstart fun i hi s hs =>
      rowStep_spec graph hs (by omega) (Nat.le_refl 16) (by omega) (.inl rfl)
  obtain ⟨s', hlast, hs'⟩ := rowStep_spec graph (n := data.length % 16) hs (by omega)
    (Nat.le_of_lt hrem) (by omega) (.inr (by omega))
  refine ⟨s'.2, ?_, hs'.length, hs'.shows⟩
  simp only [dump, hblank, hfull, hlast, Option.bind_eq_bind, Option.bind_some, Option.pure_def]

/-- Row 65536, full or last, is among the rows of anything longer. -/
theorem dump_eq_none (graph : UInt8 → Bool) (h : 2 ^ 20 ≤ data.length) :
    dump graph data = none := by
  obtain ⟨msg, hblank, -⟩ := blankLine_ruled
  have hrow : ∀ n i s, 65536 ≤ i → rowStep graph data n i s = none := fun n i s hi => by
    rw [rowStep, row_eq_none hi]
    rfl
  simp only [dump, hblank, Option.bind_eq_bind, Option.bind_some]
  rw [Option.bind_eq_none_iff]
  intro s _
  rw [hrow _ _ _ (by omega)]
  rfl

theorem logHex_eq (graph : UInt8 → Bool) (log : Log) (data : Bytes) (level : Int) :
    log.logHex graph (some data) level =
      if log.Refuses level then some (-1, []) else (dump graph data).map fun rows => (0, rows) := by
  show (if log.maxLevel < level ∨ log.file = false then some (-1, [])
    else if log.enablePackPrint = false ∧ L_INFO < level then some (-1, [])
    else (dump graph data).map fun rows => (0, rows)) = _
  by_cases h₁ : log.maxLevel < level ∨ log.file = false
  · have href : log.Refuses level := or_assoc.mp (.inl h₁)
    rw [if_pos h₁, if_pos href]
  by_cases h₂ : log.enablePackPrint = false ∧ L_INFO < level
  · have href : log.Refuses level := or_assoc.mp (.inr h₂)
    rw [if_neg h₁, if_pos h₂, if_pos href]
  · have href : ¬ log.Refuses level := fun h => (or_assoc.mpr h).elim h₁ h₂
    rw [if_neg h₁, if_neg h₂, if_neg href]

/-- **`log_hex` dumps what it is given right if and only if it prints nothing at this level or the
data has fewer than 2^20 bytes.** -/
theorem logHex_right_iff (graph : UInt8 → Bool) (log : Log) (data : Bytes) (level : Int) :
    DumpsRight graph log data level ↔ log.Refuses level ∨ data.length < 2 ^ 20 := by
  unfold DumpsRight
  rw [logHex_eq]
  by_cases href : log.Refuses level
  · rw [if_pos href]
    exact ⟨fun _ => .inl href, fun _ => ⟨_, _, rfl, .inl ⟨rfl, rfl⟩⟩⟩
  rw [if_neg href]
  constructor
  · rintro ⟨ret, rows, hlog, -⟩
    by_contra hne
    rw [dump_eq_none graph (by omega)] at hlog
    cases hlog
  · intro h
    obtain ⟨rows, hdump, hrows⟩ := dump_spec graph (h.resolve_left href)
    exact ⟨0, rows, by rw [hdump]; rfl, .inr ⟨hrows, rfl⟩⟩

/-- 2^20 bytes, with everything logged. -/
theorem logHex_overruns : ¬ DumpsRight (fun c => 33 ≤ c && c ≤ 126) ⟨L_INFO, true, true⟩
    (List.replicate (2 ^ 20) 0) L_INFO := by
  rintro ⟨ret, rows, hlog, -⟩
  rw [logHex_eq, if_neg (by decide), dump_eq_none _ (List.length_replicate ▸ Nat.le_refl _)] at hlog
  cases hlog

end Domq.Base.HexDump

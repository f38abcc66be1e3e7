import Mathlib.Data.List.TakeWhile
import Mathlib.Data.UInt
import Mathlib.Tactic.Common

/-!
# Byte strings, C strings and the decimal text of integers

* `Bytes`: a `std::string`; `ascii` writes a literal as one.
* `CStr`: a string without NUL bytes, carried as a field: what a `const char*` denotes, and what
  `c_str()` hands on unchanged. `CStr.ofBytes` reads a buffer up to its first NUL.
* `fmtInt` is `%d`, `decimal` the number a buffer starts with; `decimal_fmtInt` says they are
  inverse, so `fmtInt` is injective.
* `atol` is the C library's `atol`, which stops at the ends of `long`; `atol_fmtInt` is the inverse
  for an `int`.
* `Double` is a `double` as far as the program looks at it.
* `hex2` is `%02x` of one byte; `hexText` of a byte string is injective (`hexText_injective`).
-/

namespace Domq.Lib

/-- A byte string. -/
abbrev Bytes := List UInt8

/-- The bytes of an ASCII literal. -/
def ascii (s : String) : Bytes := s.toList.map fun c => UInt8.ofNat c.toNat

/-- The instance by which membership of byte strings is decided. -/
instance : LawfulBEq Bytes := inferInstance

/-! ## C strings -/

/-- Whether a byte string has a NUL byte is found by going through it, not through all bytes. -/
instance (priority := 2000) (s : Bytes) : Decidable (∀ b ∈ s, b ≠ 0) :=
  List.decidableBAll (fun b => b ≠ 0) s

/-- A byte string without NUL bytes. -/
structure CStr where
  bytes : Bytes
  noNul : ∀ b ∈ bytes, b ≠ 0
  deriving DecidableEq

namespace CStr

/-- The C string that starts a buffer: everything before the first NUL. -/
def ofBytes (s : Bytes) : CStr :=
  ⟨s.takeWhile fun b => b ≠ 0, fun b hb => by
    have := List.mem_takeWhile_imp hb
    simpa using this⟩

@[ext] theorem ext {a b : CStr} (h : a.bytes = b.bytes) : a = b := by
  cases a; cases b; simp only [CStr.mk.injEq]; exact h

theorem bytes_injective : Function.Injective CStr.bytes := fun _ _ h => ext h

@[simp] theorem bytes_inj {a b : CStr} : a.bytes = b.bytes ↔ a = b := bytes_injective.eq_iff

/-- Reading back a C string gives the C string. -/
@[simp] theorem ofBytes_bytes (c : CStr) : ofBytes c.bytes = c := by
  apply ext
  show c.bytes.takeWhile (fun b => b ≠ 0) = c.bytes
  rw [List.takeWhile_eq_self_iff]
  intro b hb
  simpa using c.noNul b hb

end CStr

/-- `strncmp(s, t, n) == 0`, the strings being NUL-terminated. -/
def strncmpEq : Bytes → Bytes → Nat → Bool
  | _, _, 0 => true
  | s, t, n + 1 =>
    if s.headD 0 ≠ t.headD 0 then false
    else if s.headD 0 = 0 then true
    else strncmpEq s.tail t.tail n

/-! ## Decimal text -/

/-- `%u`. -/
def fmtNat (n : Nat) : Bytes := (Nat.toDigits 10 n).map fun c => UInt8.ofNat c.toNat

/-- `%d`. -/
def fmtInt : Int → Bytes
  | .ofNat n => fmtNat n
  | .negSucc n => 45 :: fmtNat (n + 1)

def isSpace (b : UInt8) : Bool := b == 32 || (9 ≤ b && b ≤ 13)

def isDigit (b : UInt8) : Bool := 48 ≤ b && b ≤ 57

/-- The value of the digits a buffer starts with. -/
def digitsValue (s : Bytes) : Nat :=
  (s.takeWhile isDigit).foldl (fun v b => 10 * v + (b.toNat - 48)) 0

/-- The number a buffer starts with: white space, an optional sign, digits. -/
def decimal (s : Bytes) : Int :=
  match s.dropWhile isSpace with
  | [] => 0
  | b :: rest =>
    if b = 45 then -(digitsValue rest : Int)
    else if b = 43 then digitsValue rest
    else digitsValue (b :: rest)

/-- The value nearest to a number that `long` can hold. -/
def toLong (n : Int) : Int := max (-2 ^ 63) (min (2 ^ 63 - 1) n)

theorem toLong_of_range {n : Int} (hlo : -2 ^ 63 ≤ n) (hhi : n < 2 ^ 63) : toLong n = n := by
  unfold toLong
  omega

/-- `atol`: the number a buffer starts with, or the end of `long` that it lies beyond. -/
def atol (s : Bytes) : Int := toLong (decimal s)

/-- A `double`: its bits, and the `long` it is converted to, which C++ leaves open where no `long`
is near. -/
structure Double where
  bits : UInt64
  toLong : Int64
  deriving DecidableEq, Inhabited

theorem toNat_of_isDigit {c : Char} (hc : c.isDigit) : 48 ≤ c.toNat ∧ c.toNat ≤ 57 := by
  rw [Char.isDigit] at hc
  simp only [Bool.and_eq_true, decide_eq_true_eq] at hc
  obtain ⟨h₁, h₂⟩ := hc
  exact ⟨by simpa [UInt32.le_iff_toNat_le] using h₁, by simpa [UInt32.le_iff_toNat_le] using h₂⟩

theorem toNat_ofNat_of_isDigit {c : Char} (hc : c.isDigit) :
    (UInt8.ofNat c.toNat).toNat = c.toNat := by
  have h := (toNat_of_isDigit hc).2
  exact UInt8.toNat_ofNat_of_lt (by show c.toNat < 256; omega)

theorem isDigit_of_mem_fmtNat {n : Nat} {b : UInt8} (hb : b ∈ fmtNat n) : isDigit b = true := by
  obtain ⟨c, hc, rfl⟩ := List.mem_map.mp hb
  have hd := Nat.isDigit_of_mem_toDigits (by decide) (by decide) hc
  simp only [isDigit, Bool.and_eq_true, decide_eq_true_eq, UInt8.le_iff_toNat_le,
    toNat_ofNat_of_isDigit hd]
  exact toNat_of_isDigit hd

theorem fmtNat_ne_nil (n : Nat) : fmtNat n ≠ [] := by
  intro h
  exact Nat.toDigits_ne_nil (List.map_eq_nil_iff.mp h)

theorem foldl_digits (l : List Char) (hl : ∀ c ∈ l, c.isDigit) (v : Nat) :
    (l.map fun c => UInt8.ofNat c.toNat).foldl (fun v b => 10 * v + (b.toNat - 48)) v =
      Nat.ofDigitChars 10 l v := by
  induction l generalizing v with
  | nil => rw [Nat.ofDigitChars_nil]; rfl
  | cons c l ih =>
    rw [Nat.ofDigitChars_cons, List.map_cons, List.foldl_cons,
      toNat_ofNat_of_isDigit (hl c List.mem_cons_self)]
    exact ih (fun d hd => hl d (List.mem_cons_of_mem c hd)) _

@[simp] theorem digitsValue_fmtNat (n : Nat) : digitsValue (fmtNat n) = n := by
  have hall : (fmtNat n).takeWhile isDigit = fmtNat n :=
    List.takeWhile_eq_self_iff.mpr fun b hb => isDigit_of_mem_fmtNat hb
  unfold digitsValue
  rw [hall]
  unfold fmtNat
  rw [foldl_digits _ fun c hc => Nat.isDigit_of_mem_toDigits (by decide) (by decide) hc]
  exact Nat.ofDigitChars_ten_toDigits

theorem not_isSpace_of_isDigit {b : UInt8} (hb : isDigit b = true) :
    isSpace b = false ∧ b ≠ 45 ∧ b ≠ 43 := by
  simp only [isDigit, Bool.and_eq_true, decide_eq_true_eq, UInt8.le_iff_toNat_le] at hb
  obtain ⟨h₁, h₂⟩ := hb
  have e₁ : (48 : UInt8).toNat = 48 := rfl
  have hne : ∀ c : UInt8, c.toNat < 48 → b ≠ c := by
    rintro c hc rfl
    omega
  refine ⟨?_, hne 45 (by decide), hne 43 (by decide)⟩
  simp only [isSpace, Bool.or_eq_false_iff, beq_eq_false_iff_ne, Bool.and_eq_false_iff,
    decide_eq_false_iff_not, UInt8.le_iff_toNat_le]
  refine ⟨hne 32 (by decide), Or.inr ?_⟩
  have : (13 : UInt8).toNat = 13 := rfl
  omega

/-- **What `%d` wrote is read back.** -/
@[simp] theorem decimal_fmtInt (n : Int) : decimal (fmtInt n) = n := by
  have hpos : ∀ k : Nat, decimal (fmtNat k) = k := by
    intro k
    unfold decimal
    cases hk : fmtNat k with
    | nil => exact absurd hk (fmtNat_ne_nil k)
    | cons b rest =>
      have hb : isDigit b = true :=
        isDigit_of_mem_fmtNat (n := k) (by rw [hk]; exact List.mem_cons_self)
      obtain ⟨hs, h45, h43⟩ := not_isSpace_of_isDigit hb
      rw [List.dropWhile_cons_of_neg (by simp [hs])]
      simp only
      rw [if_neg h45, if_neg h43, ← hk, digitsValue_fmtNat]
  cases n with
  | ofNat k => exact hpos k
  | negSucc k =>
    show decimal (45 :: fmtNat (k + 1)) = _
    unfold decimal
    rw [List.dropWhile_cons_of_neg (by decide)]
    simp only [if_true, digitsValue_fmtNat]
    rfl

theorem fmtInt_injective : Function.Injective fmtInt := fun a b h => by
  rw [← decimal_fmtInt a, h, decimal_fmtInt]

/-- **`atol` reads back an `int` that `%d` wrote.** -/
@[simp] theorem atol_fmtInt (n : Int32) : atol (fmtInt n.toInt) = n.toInt := by
  have hlo := n.le_toInt
  have hhi := n.toInt_lt
  rw [atol, decimal_fmtInt]
  exact toLong_of_range (by omega) (by omega)

/-! ## Hexadecimal text -/

/-- The lower-case hexadecimal digit of a nibble. -/
def hexDigit (n : Nat) : UInt8 := if n < 10 then UInt8.ofNat (48 + n) else UInt8.ofNat (87 + n)

/-- `%02x` of one byte. -/
def hex2 (b : UInt8) : Bytes := [hexDigit (b.toNat / 16), hexDigit (b.toNat % 16)]

/-- `%02x` of every byte. -/
def hexText (s : Bytes) : Bytes := s.flatMap hex2

theorem hexText_cons (b : UInt8) (s : Bytes) : hexText (b :: s) = hex2 b ++ hexText s := rfl

theorem length_hexText (s : Bytes) : (hexText s).length = 2 * s.length := by
  induction s with
  | nil => rfl
  | cons b s ih =>
    rw [hexText_cons, List.length_append, ih, List.length_cons]
    show 2 + 2 * s.length = _
    omega

theorem hexDigit_ne_zero : ∀ n < 16, hexDigit n ≠ 0 := by decide

theorem hexText_ne_zero {s : Bytes} {c : UInt8} (hc : c ∈ hexText s) : c ≠ 0 := by
  obtain ⟨b, -, hb⟩ := List.mem_flatMap.mp hc
  have hlt := b.toNat_lt
  simp only [hex2, List.mem_cons, List.not_mem_nil, or_false] at hb
  rcases hb with rfl | rfl
  · exact hexDigit_ne_zero _ (by omega)
  · exact hexDigit_ne_zero _ (by omega)

theorem hexDigit_inj : ∀ a < 16, ∀ b < 16, hexDigit a = hexDigit b → a = b := by decide

theorem hex2_injective : Function.Injective hex2 := fun a b h => by
  simp only [hex2, List.cons.injEq, and_true] at h
  have ha := a.toNat_lt
  have hb := b.toNat_lt
  have h₁ := hexDigit_inj _ (by omega) _ (by omega) h.1
  have h₂ := hexDigit_inj _ (by omega) _ (by omega) h.2
  apply UInt8.toNat_inj.mp
  omega

/-- **Hexadecimal text determines the bytes.** -/
theorem hexText_injective : Function.Injective hexText := by
  intro s
  induction s with
  | nil =>
    intro t h
    cases t with
    | nil => rfl
    | cons b t => exact absurd h (by simp [hexText, hex2])
  | cons a s ih =>
    intro t h
    cases t with
    | nil => exact absurd h (by simp [hexText, hex2])
    | cons b t =>
      simp only [hexText, List.flatMap_cons] at h
      obtain ⟨h₁, h₂⟩ := List.append_inj h rfl
      rw [hex2_injective h₁, ih h₂]

end Domq.Lib

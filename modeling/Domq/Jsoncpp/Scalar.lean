import Domq.Jsoncpp.Reader
import Mathlib.Tactic.Ring

/-!
# Strings and numbers of a JSON text in the reader

What `readString`, `decodeString` and `decodeNumber` make of the strings and numbers of the grammar.

* `decodeString_quoted`: a string is read as the bytes it stands for.
* `decodeNumber_number`: a number of 32 characters overruns the buffer of `decodeDouble`. Every
  other one is read: as an integer, exactly, if it has no fraction and no exponent and is `Kept`,
  and otherwise by `scan`. The ends of the ranges of `Int` and `UInt` are not kept, since the
  threshold of `decodeNumber` is compared before the last digit is known.
-/

namespace Domq.Jsoncpp

open Domq.Lib Domq.Mq

/-! ## Strings -/

theorem hexVal_cases {b : UInt8} {x : Nat} (h : hexVal b = some x) : x < 16 ∧ b ≠ 92 ∧ b ≠ 34 := by
  unfold hexVal at h
  simp only [UInt8.le_iff_toNat_le] at h
  refine ⟨?_, ?_, ?_⟩
  · have e : (57 : UInt8).toNat = 57 ∧ (102 : UInt8).toNat = 102 ∧ (70 : UInt8).toNat = 70 := by
      decide
    split_ifs at h <;> simp only [Option.some.injEq] at h <;> omega
  · rintro rfl
    simp at h
  · rintro rfl
    simp at h

theorem hex4_lt {h : Bytes} {n : Nat} (hh : Hex4 h n) : n < 0x10000 := by
  cases hh with
  | mk ha hb hc hd =>
    have hx := (hexVal_cases ha).1
    have hy := (hexVal_cases hb).1
    have hz := (hexVal_cases hc).1
    have hw := (hexVal_cases hd).1
    omega

theorem readString_hex {h : Bytes} {n : Nat} (hh : Hex4 h n) (s : Bytes) :
    readString (h ++ s) = readString s := by
  cases hh with
  | mk ha hb hc hd =>
    obtain ⟨-, ha, ha'⟩ := hexVal_cases ha
    obtain ⟨-, hb, hb'⟩ := hexVal_cases hb
    obtain ⟨-, hc, hc'⟩ := hexVal_cases hc
    obtain ⟨-, hd, hd'⟩ := hexVal_cases hd
    simp only [List.cons_append, List.nil_append]
    rw [readString_cons ha ha', readString_cons hb hb', readString_cons hc hc',
      readString_cons hd hd']

theorem readString_char {t b : Bytes} (h : CharText t b) (s : Bytes) :
    readString (t ++ s) = readString s := by
  cases h with
  | unescaped _ hquote hbackslash => exact readString_cons hbackslash hquote s
  | escape _ => exact readString_escape _ s
  | unicode hh _ =>
    simp only [List.cons_append]
    rw [readString_escape, readString_hex hh]
  | surrogates hh hl _ _ _ _ =>
    simp only [List.cons_append, List.append_assoc]
    rw [readString_escape, readString_hex hh, readString_escape, readString_hex hl]

/-- The quotation mark that ends a string is the first that is not escaped. -/
theorem readString_text {t b : Bytes} (h : StringText t b) (s : Bytes) :
    readString (t ++ 34 :: s) = (true, s) := by
  induction h with
  | nil => exact readString_quote s
  | cons hc _ ih => rw [List.append_assoc, readString_char hc, ih]

theorem decodeUnicodeEscapeSequence_hex {h : Bytes} {n : Nat} (hh : Hex4 h n) (s : Bytes) :
    decodeUnicodeEscapeSequence (h ++ s) = some (n, s) := by
  cases hh with
  | mk ha hb hc hd =>
    simp [decodeUnicodeEscapeSequence, ha, hb, hc, hd]

theorem decodeUnicodeCodePoint_hex {h : Bytes} {n : Nat} (hh : Hex4 h n)
    (hn : n < 0xD800 ∨ 0xDFFF < n) (s : Bytes) : decodeUnicodeCodePoint (h ++ s) = some (n, s) := by
  unfold decodeUnicodeCodePoint
  rw [decodeUnicodeEscapeSequence_hex hh]
  exact if_neg (by omega)

theorem decodeUnicodeCodePoint_pair {h l : Bytes} {n m : Nat} (hh : Hex4 h n) (hl : Hex4 l m)
    (hn : 0xD800 ≤ n) (hn' : n ≤ 0xDBFF) (hm : 0xDC00 ≤ m) (hm' : m ≤ 0xDFFF) (s : Bytes) :
    decodeUnicodeCodePoint (h ++ 92 :: 117 :: (l ++ s)) =
      some (0x10000 + (n - 0xD800) * 0x400 + (m - 0xDC00), s) := by
  have hand : ∀ k, k &&& 0x3FF = k % 0x400 := fun k => Nat.and_two_pow_sub_one_eq_mod k 10
  have hlen : l.length = 4 := by
    cases hl with
    | mk => rfl
  unfold decodeUnicodeCodePoint
  rw [decodeUnicodeEscapeSequence_hex hh]
  show (if _ then _ else _) = _
  rw [if_pos ⟨hn, hn'⟩, if_neg (by simp [hlen])]
  show (decodeUnicodeEscapeSequence (l ++ s)).bind _ = _
  rw [decodeUnicodeEscapeSequence_hex hl]
  show some (0x10000 + ((n &&& 0x3FF) <<< 10) + (m &&& 0x3FF), s) = _
  have hsum : 0x10000 + ((n &&& 0x3FF) <<< 10) + (m &&& 0x3FF) =
      0x10000 + (n - 0xD800) * 0x400 + (m - 0xDC00) := by
    rw [hand, hand, Nat.shiftLeft_eq]
    omega
  rw [hsum]

theorem decodeStringLoop_unicode {s r : Bytes} {n : Nat}
    (h : decodeUnicodeCodePoint s = some (n, r)) :
    decodeStringLoop (92 :: 117 :: s) = (decodeStringLoop r).map (codePointToUTF8 n ++ ·) := by
  rw [decodeStringLoop.eq_def]
  dsimp only
  rw [if_neg (by decide), if_pos rfl]
  split
  case h_10 heq =>
    cases heq
    split
    · next hnone =>
      rw [h] at hnone
      cases hnone
    · next hsome =>
      rw [h] at hsome
      cases hsome
      rfl
  -- the other escapes
  all_goals simp_all

/-- What `decodeString` appends for a character. -/
theorem decodeStringLoop_char {t b : Bytes} (h : CharText t b) (s : Bytes) :
    decodeStringLoop (t ++ s) = (decodeStringLoop s).map (b ++ ·) := by
  cases h with
  | unescaped _ hquote hbackslash =>
    show decodeStringLoop (_ :: s) = _
    rw [decodeStringLoop.eq_def]
    simp only [hquote, hbackslash, if_false]
    rfl
  | escape h =>
    simp only [escapes, List.mem_cons, Prod.mk.injEq, List.not_mem_nil, or_false] at h
    show decodeStringLoop (92 :: _ :: s) = _
    rcases h with ⟨rfl, rfl⟩ | ⟨rfl, rfl⟩ | ⟨rfl, rfl⟩ | ⟨rfl, rfl⟩ | ⟨rfl, rfl⟩ | ⟨rfl, rfl⟩ |
      ⟨rfl, rfl⟩ | ⟨rfl, rfl⟩ <;> rw [decodeStringLoop.eq_def] <;> rfl
  | unicode hh hn =>
    have hlt := hex4_lt hh
    rw [List.cons_append, List.cons_append,
      decodeStringLoop_unicode (decodeUnicodeCodePoint_hex hh hn s),
      codePointToUTF8_eq (hn.imp id fun hn => ⟨hn, by omega⟩)]
  | surrogates hh hl hn hn' hm hm' =>
    rw [List.cons_append, List.cons_append, List.append_assoc, List.cons_append, List.cons_append,
      decodeStringLoop_unicode (decodeUnicodeCodePoint_pair hh hl hn hn' hm hm' s),
      codePointToUTF8_eq (.inr ⟨by omega, by omega⟩)]

/-- `decodeString` reads the text of a string back. -/
theorem decodeStringLoop_text {t b : Bytes} (h : StringText t b) : decodeStringLoop t = some b := by
  induction h with
  | nil => rw [decodeStringLoop]
  | cons hc _ ih => rw [decodeStringLoop_char hc, ih, Option.map_some]

theorem decodeString_quoted {t b : Bytes} (h : StringText t b) :
    decodeString (quoted t) = some b := by
  unfold decodeString quoted
  rw [List.tail_cons, List.dropLast_concat]
  exact decodeStringLoop_text h

/-! ## Numbers -/

/-- The integers that stay integers: all but the ends of the ranges of `Int` and `UInt`. -/
def Kept (n : Int) : Prop := -9223372036854775799 ≤ n ∧ n ≤ 18446744073709551609

instance (n : Int) : Decidable (Kept n) := inferInstanceAs (Decidable (_ ∧ _))

/-- A number without fraction and exponent. -/
def plainInteger (text : Bytes) : Bool := text.all fun c => isDigit c || c == 45

/-- The value of an integer. -/
def integerValue (n : Int) : Json :=
  if n ≤ 2 ^ 63 - 1 then .int (Int64.ofInt n) else .uint (UInt64.ofNat n.toNat)

/-- The value of a number. -/
def loadNumber (scan : Bytes → Option Double) (text : Bytes) : Json :=
  if plainInteger text = true ∧ Kept (decimal text) then integerValue (decimal text)
  else .real ((scan text).getD default)

/-- The value of digits, behind digits of value `v`. -/
def digitsFrom (v : Nat) (ds : Bytes) : Nat := ds.foldl (fun v b => 10 * v + (b.toNat - 48)) v

theorem le_digitsFrom (v : Nat) (ds : Bytes) : v * 10 ^ ds.length ≤ digitsFrom v ds := by
  induction ds generalizing v with
  | nil => simp [digitsFrom]
  | cons b ds ih =>
    calc v * 10 ^ (b :: ds).length = 10 * v * 10 ^ ds.length := by
          rw [List.length_cons, Nat.pow_succ]; ring
      _ ≤ (10 * v + (b.toNat - 48)) * 10 ^ ds.length :=
          Nat.mul_le_mul_right _ (Nat.le_add_right _ _)
      _ ≤ digitsFrom (10 * v + (b.toNat - 48)) ds := ih _

theorem le_digitsFrom_self (v : Nat) (ds : Bytes) : v ≤ digitsFrom v ds :=
  (Nat.le_mul_of_pos_right v (Nat.pow_pos (by decide))).trans (le_digitsFrom v ds)

theorem digitsValue_eq {ds : Bytes} (h : ∀ b ∈ ds, isDigit b = true) :
    digitsValue ds = digitsFrom 0 ds := by
  unfold digitsValue digitsFrom
  rw [List.takeWhile_eq_self_iff.mpr h]

theorem isDigit_bounds {b : UInt8} (h : isDigit b = true) : 48 ≤ b.toNat ∧ b.toNat ≤ 57 := by
  simpa [isDigit, UInt8.le_iff_toNat_le] using h

/-- The loop of `decodeNumber` keeps a value below ten times the threshold. -/
theorem decodeDigits_eq {threshold : Nat} {ds : Bytes} (h : ∀ b ∈ ds, isDigit b = true) {v : Nat}
    (hv : v < 10 * threshold) :
    decodeDigits threshold v ds =
      some (if digitsFrom v ds < 10 * threshold then some (digitsFrom v ds) else none) := by
  induction ds generalizing v with
  | nil => simp [decodeDigits, digitsFrom, hv]
  | cons b ds ih =>
    obtain ⟨hb, hds⟩ := List.forall_mem_cons.mp h
    obtain ⟨hlo, hhi⟩ := isDigit_bounds hb
    have hchar : ¬ (b < 48 ∨ 57 < b) := by
      simp only [UInt8.lt_iff_toNat_lt]
      have e : (48 : UInt8).toNat = 48 ∧ (57 : UInt8).toNat = 57 := by decide
      omega
    have hstep : digitsFrom v (b :: ds) = digitsFrom (v * 10 + (b.toNat - 48)) ds := by
      rw [Nat.mul_comm v]
      rfl
    rw [decodeDigits, if_neg hchar, hstep]
    by_cases hle : threshold ≤ v
    · have hbig := le_digitsFrom_self (v * 10 + (b.toNat - 48)) ds
      rw [if_pos hle, if_neg (by omega)]
    · rw [if_neg hle]
      exact ih hds (by omega)

/-- Digits without a leading zero have at least the value of their place. -/
theorem le_digitsValue {ds : Bytes} (h : IsInt ds) (hlen : 1 < ds.length) :
    10 ^ (ds.length - 1) ≤ digitsFrom 0 ds := by
  obtain ⟨⟨-, hdigits⟩, hzero⟩ := h
  cases ds with
  | nil => simp at hlen
  | cons b ds =>
    have hb := isDigit_bounds (hdigits b List.mem_cons_self)
    have hne : b.toNat ≠ 48 := by
      intro h48
      have : b = 48 := UInt8.toNat_inj.mp h48
      have := congrArg List.length (hzero (congrArg some this))
      simp only [List.length_cons, List.length_nil] at this hlen
      omega
    have hle := le_digitsFrom (10 * 0 + (b.toNat - 48)) ds
    calc 10 ^ ((b :: ds).length - 1) = 1 * 10 ^ ds.length := by simp
      _ ≤ (10 * 0 + (b.toNat - 48)) * 10 ^ ds.length := Nat.mul_le_mul_right _ (by omega)
      _ ≤ digitsFrom 0 (b :: ds) := hle

theorem decimal_digits {ds : Bytes} (h : IsDigits ds) : decimal ds = digitsFrom 0 ds := by
  obtain ⟨hne, hdigits⟩ := h
  cases ds with
  | nil => exact absurd rfl hne
  | cons b ds =>
    obtain ⟨hs, h45, h43⟩ := not_isSpace_of_isDigit (hdigits b List.mem_cons_self)
    unfold decimal
    rw [List.dropWhile_cons_of_neg (by simp [hs])]
    simp only [h45, h43, if_false, digitsValue_eq hdigits]

theorem decimal_minus {ds : Bytes} (h : ∀ b ∈ ds, isDigit b = true) :
    decimal (45 :: ds) = -(digitsFrom 0 ds : Int) := by
  unfold decimal
  rw [List.dropWhile_cons_of_neg (by decide)]
  simp only [if_true, digitsValue_eq h]

/-- A fraction and an exponent have a character that makes the number a double. -/
theorem isDouble_of_mem {t : Bytes} {c : UInt8} (hc : c = 46 ∨ c = 101 ∨ c = 69) (h : c ∈ t) :
    isDouble t = true ∧ plainInteger t = false := by
  constructor
  · rw [isDouble, Bool.or_eq_true]
    refine .inl (List.any_eq_true.mpr ⟨c, h, ?_⟩)
    rcases hc with rfl | rfl | rfl <;> rfl
  · refine List.all_eq_false.mpr ⟨c, h, ?_⟩
    rcases hc with rfl | rfl | rfl <;> decide

theorem isDouble_integer {t : Bytes} (h : IsInteger t) :
    isDouble t = false ∧ plainInteger t = true := by
  have hdigit : ∀ b : UInt8, isDigit b = true → b ≠ 46 ∧ b ≠ 101 ∧ b ≠ 69 ∧ b ≠ 43 ∧ b ≠ 45 := by
    intro b hb
    refine ⟨?_, ?_, ?_, ?_, ?_⟩ <;> rintro rfl <;> revert hb <;> decide
  have hall : ∀ ds : Bytes, (∀ b ∈ ds, isDigit b = true) →
      (ds.any fun c => c == 46 || c == 101 || c == 69 || c == 43) = false ∧
        (ds.any fun c => c == 45) = false := by
    intro ds hds
    refine ⟨List.any_eq_false.mpr fun b hb => ?_, List.any_eq_false.mpr fun b hb => ?_⟩
    · obtain ⟨h46, h101, h69, h43, -⟩ := hdigit b (hds b hb)
      simp [h46, h101, h69, h43]
    · simpa using (hdigit b (hds b hb)).2.2.2.2
  have hplain : ∀ ds : Bytes, (∀ b ∈ ds, isDigit b = true) → plainInteger ds = true :=
    fun ds hds => List.all_eq_true.mpr fun b hb => by simp [hds b hb]
  cases h with
  | plain h =>
    refine ⟨?_, hplain t h.1.2⟩
    rw [isDouble, (hall t h.1.2).1, Bool.false_or]
    exact (hall t.tail fun b hb => h.1.2 b (List.mem_of_mem_tail hb)).2
  | @minus ds h =>
    refine ⟨?_, ?_⟩
    · rw [isDouble, List.any_cons, (hall ds h.1.2).1, List.tail_cons, (hall ds h.1.2).2]
      rfl
    · rw [plainInteger, List.all_cons]
      exact hplain ds h.1.2

/-- A number is an integer, or it has a fraction or an exponent and is a double. -/
theorem isNumber_cases {t : Bytes} (h : IsNumber t) :
    IsInteger t ∨ isDouble t = true ∧ plainInteger t = false := by
  obtain ⟨hi, hf, he⟩ := h
  cases hf with
  | some _ => exact .inr (isDouble_of_mem (c := 46) (.inl rfl) (by simp))
  | none =>
    cases he with
    | none =>
      rw [List.append_nil, List.append_nil]
      exact .inl hi
    | some he _ _ => exact .inr (isDouble_of_mem (.inr he) (by simp))

theorem decodeDouble_eq {scan : Bytes → Option Double} {t : Bytes} (hscan : (scan t).isSome)
    (hlen : t.length < 2 ^ 31) (rest : Bytes) :
    decodeDouble scan t rest =
      if t.length = 32 then .overrun else .ok (.real ((scan t).getD default)) rest := by
  have hint : (Int32.ofNat t.length).toInt = t.length := Int32.toInt_ofNat_of_lt hlen
  obtain ⟨x, hx⟩ := Option.isSome_iff_exists.mp hscan
  unfold decodeDouble
  simp only [hint, hx, Option.getD_some]
  by_cases h : t.length = 32
  · rw [if_pos h, if_pos (by omega)]
  · rw [if_neg h, if_neg (by omega)]

/-- An integer of 32 characters has at least 31 digits. -/
theorem le_of_length {ds : Bytes} (h : IsInt ds) (hlen : 31 ≤ ds.length) :
    18446744073709551610 ≤ digitsFrom 0 ds :=
  calc 18446744073709551610 ≤ 10 ^ 30 := by decide
    _ ≤ 10 ^ (ds.length - 1) := Nat.pow_le_pow_right (by decide) (by omega)
    _ ≤ digitsFrom 0 ds := le_digitsValue h (by omega)

/-- `decodeNumber` on an integer. -/
theorem decodeNumber_integer {scan : Bytes → Option Double} {t : Bytes} (h : IsInteger t)
    (hscan : (scan t).isSome) (hlen : t.length < 2 ^ 31) (rest : Bytes) :
    decodeNumber scan t rest =
      if t.length = 32 then .overrun else .ok (loadNumber scan t) rest := by
  obtain ⟨hdouble, hplain⟩ := isDouble_integer h
  unfold decodeNumber loadNumber
  simp only [hdouble, hplain, true_and, Bool.false_eq_true, if_false]
  cases h with
  | plain h =>
    have hsign : decide (t.head? = some 45) = false := by
      obtain ⟨⟨-, hdigits⟩, -⟩ := h
      refine decide_eq_false fun hhead => ?_
      have := hdigits 45 (List.mem_of_mem_head? hhead)
      revert this
      decide
    rw [hsign, decimal_digits h.1]
    simp only [Bool.false_eq_true, if_false]
    rw [decodeDigits_eq h.1.2 (by decide)]
    by_cases hlt : digitsFrom 0 t < 10 * ((2 ^ 64 - 1) / 10)
    · have h32 : t.length ≠ 32 := fun h32 => by
        have := le_of_length h (by omega)
        omega
      rw [if_pos hlt, if_neg h32, if_pos (show Kept _ from ⟨by omega, by omega⟩)]
      dsimp only
      by_cases hint : digitsFrom 0 t ≤ 2 ^ 63 - 1
      · rw [if_pos hint, integerValue, if_pos (by omega), Int64.ofInt_eq_ofNat]
      · rw [if_neg hint, integerValue, if_neg (by omega), Int.toNat_natCast]
    · rw [if_neg hlt, if_neg (fun hk : Kept _ => hlt (by have := hk.2; omega))]
      exact decodeDouble_eq hscan hlen rest
  | @minus ds h =>
    have hsign : decide ((45 :: ds).head? = some 45) = true := rfl
    rw [hsign, decimal_minus h.1.2]
    simp only [if_true, List.tail_cons]
    rw [decodeDigits_eq h.1.2 (by decide)]
    by_cases hlt : digitsFrom 0 ds < 10 * (2 ^ 63 / 10)
    · have h32 : (45 :: ds).length ≠ 32 := fun h32 => by
        have := le_of_length h (by rw [List.length_cons] at h32; omega)
        omega
      rw [if_pos hlt, if_neg h32, if_pos (show Kept _ from ⟨by omega, by omega⟩), integerValue,
        if_pos (by omega), Int64.ofInt_neg, Int64.ofInt_eq_ofNat]
    · rw [if_neg hlt, if_neg (fun hk : Kept _ => hlt (by have := hk.1; omega))]
      exact decodeDouble_eq hscan hlen rest

/-- **`decodeNumber` on a number.** -/
theorem decodeNumber_number {scan : Bytes → Option Double} {t : Bytes} (h : IsNumber t)
    (hscan : (scan t).isSome) (hlen : t.length < 2 ^ 31) (rest : Bytes) :
    decodeNumber scan t rest =
      if t.length = 32 then .overrun else .ok (loadNumber scan t) rest := by
  rcases isNumber_cases h with h | ⟨hdouble, hplain⟩
  · exact decodeNumber_integer h hscan hlen rest
  · have hload : loadNumber scan t = .real ((scan t).getD default) := if_neg (by simp [hplain])
    rw [decodeNumber, if_pos hdouble, hload]
    exact decodeDouble_eq hscan hlen rest

theorem digits_chars {ds : Bytes} (h : IsDigits ds) : ∀ b ∈ ds, isNumberChar b = true := by
  intro b hb
  have hdigit := h.2 b hb
  rw [isDigit] at hdigit
  simp [isNumberChar, hdigit]

theorem number_all {t : Bytes} (h : IsNumber t) : ∀ b ∈ t, isNumberChar b = true := by
  obtain ⟨hi, hf, he⟩ := h
  simp only [List.mem_append]
  rintro b ((hb | hb) | hb)
  · cases hi with
    | plain h => exact digits_chars h.1 b hb
    | minus h =>
      rcases List.mem_cons.mp hb with rfl | hb
      · rfl
      · exact digits_chars h.1 b hb
  · cases hf with
    | none => exact absurd hb List.not_mem_nil
    | some h =>
      rcases List.mem_cons.mp hb with rfl | hb
      · rfl
      · exact digits_chars h b hb
  · cases he with
    | none => exact absurd hb List.not_mem_nil
    | some he hs h =>
      rcases List.mem_cons.mp hb with rfl | hb
      · rcases he with rfl | rfl <;> rfl
      · rcases List.mem_append.mp hb with hb | hb
        · rcases hs with rfl | rfl | rfl
          · exact absurd hb List.not_mem_nil
          · rw [List.mem_singleton.mp hb]
            rfl
          · rw [List.mem_singleton.mp hb]
            rfl
        · exact digits_chars h b hb

/-- The first character of a number makes it one. -/
theorem number_head {t : Bytes} (h : IsNumber t) :
    ∃ c ts, t = c :: ts ∧ (48 ≤ c ∧ c ≤ 57 ∨ c = 45) := by
  obtain @⟨int, frac, exp, hi, hf, he⟩ := h
  cases hi with
  | plain h =>
    obtain ⟨⟨hne, hdigits⟩, -⟩ := h
    cases int with
    | nil => exact absurd rfl hne
    | cons c ds =>
      have hc := hdigits c List.mem_cons_self
      simp only [isDigit, Bool.and_eq_true, decide_eq_true_eq] at hc
      exact ⟨c, _, rfl, .inl hc⟩
  | minus h => exact ⟨45, _, rfl, .inr rfl⟩

end Domq.Jsoncpp

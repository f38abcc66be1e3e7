import Domq.Lib.Text

/-!
# Escaping of logged bytes

Model of `base::Escape` (`framework/base/util/util.cpp`), both overloads.

* `char` is signed, so the printable test compares the byte as an `Int8`; every byte above `0x7e`
  fails it, by its sign or by its value.
* `escapeByte` is the loop body. `snprintf(buf, 5, "\\x%02x", ..)` writes four characters and a
  NUL, so nothing is cut off.
* The backslash is a printable byte. It is copied as it is, and `case '\\'` of the switch is never
  reached.

Results:
* `escape_idem`: what was escaped once is left alone by a second pass, so a text with an escape
  form in it and the bytes the form stands for look the same.
* `escape_eq_iff_plain`: a string is told apart from every other one exactly when it is printable
  and contains no escape form.
* `escape_injOn`: among strings without a backslash, escaping is injective.
-/

namespace Domq.Base

open Domq.Lib

/-- `c >= 0x20 && c <= 0x7e`. -/
def isPrintable (c : UInt8) : Bool := (0x20 : Int8) ≤ c.toInt8 && c.toInt8 ≤ (0x7e : Int8)

/-- What the loop of `Escape` appends for one byte. -/
def escapeByte (c : UInt8) : Bytes :=
  if isPrintable c then [c]
  else if c = 9 then ascii "\\t"
  else if c = 10 then ascii "\\n"
  else if c = 13 then ascii "\\r"
  else if c = 92 then ascii "\\\\"
  else if c = 0 then ascii "\\0"
  else ascii "\\x" ++ hex2 c

/-- `Escape(const std::string& s)`. -/
def escape (s : Bytes) : Bytes :=
  (List.range s.length).foldl (fun result i => result ++ escapeByte (s.getD i 0)) []

/-- `Escape(const char* buf, size_t len)`, `buf` being the memory from the pointer on. -/
def escapeBuf (buf : Nat → UInt8) (len : Nat) : Bytes :=
  (List.range len).foldl (fun result i => result ++ escapeByte (buf i)) []

/-- A text that `Escape` writes for a byte it does not copy. -/
def EscapeForm (w : Bytes) : Prop :=
  w ∈ [ascii "\\t", ascii "\\n", ascii "\\r", ascii "\\0"] ∨
    ∃ c, isPrintable c = false ∧ c ∉ [(9 : UInt8), 10, 13, 0] ∧ w = ascii "\\x" ++ hex2 c

/-- A printable string without an escape form in it. -/
def Plain (s : Bytes) : Prop :=
  (∀ c ∈ s, isPrintable c = true) ∧ ∀ w, EscapeForm w → ¬ w <:+: s

/-! ## One byte -/

theorem escapeByte_of_printable {c : UInt8} (hc : isPrintable c = true) : escapeByte c = [c] := by
  unfold escapeByte
  rw [if_pos hc]

example : escapeByte 92 = [92] := by decide

theorem escapeByte_hex {c : UInt8} (hc : isPrintable c = false)
    (hcs : c ∉ [(9 : UInt8), 10, 13, 0]) : escapeByte c = ascii "\\x" ++ hex2 c := by
  simp only [List.mem_cons, List.not_mem_nil, or_false, not_or] at hcs
  obtain ⟨h9, h10, h13, h0⟩ := hcs
  have h92 : c ≠ 92 := by
    rintro rfl
    exact absurd hc (by decide)
  unfold escapeByte
  rw [if_neg (by simp [hc]), if_neg h9, if_neg h10, if_neg h13, if_neg h92, if_neg h0]

/-- A byte that is not copied is one of the four with a letter, or is written in hexadecimal. -/
theorem escapeByte_cases {c : UInt8} (hc : isPrintable c = false) :
    (c = 9 ∨ c = 10 ∨ c = 13 ∨ c = 0) ∨
      c ∉ [(9 : UInt8), 10, 13, 0] ∧ escapeByte c = ascii "\\x" ++ hex2 c := by
  by_cases hcs : c ∈ [(9 : UInt8), 10, 13, 0]
  · left
    simpa only [List.mem_cons, List.not_mem_nil, or_false] using hcs
  · exact .inr ⟨hcs, escapeByte_hex hc hcs⟩

theorem printable_hexDigit : ∀ n < 16, isPrintable (hexDigit n) = true := by decide

theorem printable_escapeByte (c : UInt8) : ∀ b ∈ escapeByte c, isPrintable b = true := by
  rcases Bool.eq_false_or_eq_true (isPrintable c) with hc | hc
  · rw [escapeByte_of_printable hc]
    simpa using hc
  rcases escapeByte_cases hc with (rfl | rfl | rfl | rfl) | ⟨-, hhex⟩
  · exact List.all_eq_true.mp (by decide)
  · exact List.all_eq_true.mp (by decide)
  · exact List.all_eq_true.mp (by decide)
  · exact List.all_eq_true.mp (by decide)
  · have hlt := c.toNat_lt
    have hform : ∀ b ∈ ascii "\\x", isPrintable b = true :=
      List.all_eq_true.mp (by decide)
    intro b hb
    rw [hhex] at hb
    rcases List.mem_append.mp hb with hb | hb
    · exact hform b hb
    · simp only [hex2, List.mem_cons, List.not_mem_nil, or_false] at hb
      rcases hb with rfl | rfl
      · exact printable_hexDigit _ (by omega)
      · exact printable_hexDigit _ (by omega)

/-- The escape forms are the texts written for the bytes that are not copied. -/
theorem escapeForm_iff (w : Bytes) :
    EscapeForm w ↔ ∃ c, isPrintable c = false ∧ escapeByte c = w := by
  constructor
  · rintro (hw | ⟨c, hc, hcs, rfl⟩)
    · simp only [List.mem_cons, List.not_mem_nil, or_false] at hw
      rcases hw with rfl | rfl | rfl | rfl
      · exact ⟨9, by decide, by decide⟩
      · exact ⟨10, by decide, by decide⟩
      · exact ⟨13, by decide, by decide⟩
      · exact ⟨0, by decide, by decide⟩
    · exact ⟨c, hc, escapeByte_hex hc hcs⟩
  · rintro ⟨c, hc, rfl⟩
    rcases escapeByte_cases hc with hcs | ⟨hcs, hhex⟩
    · left
      rcases hcs with rfl | rfl | rfl | rfl <;> decide
    · exact Or.inr ⟨c, hc, hcs, hhex⟩

/-- The second byte of a form tells which of the five kinds it is. -/
def formKind (c : UInt8) : UInt8 :=
  if c = 9 then 116 else if c = 10 then 110 else if c = 13 then 114 else if c = 0 then 48 else 120

theorem escapeByte_form {c : UInt8} (hc : isPrintable c = false) :
    escapeByte c = 92 :: formKind c :: (if formKind c = 120 then hex2 c else []) := by
  rcases escapeByte_cases hc with (rfl | rfl | rfl | rfl) | ⟨hcs, hhex⟩
  · decide
  · decide
  · decide
  · decide
  · simp only [List.mem_cons, List.not_mem_nil, or_false, not_or] at hcs
    obtain ⟨h9, h10, h13, h0⟩ := hcs
    have hkind : formKind c = 120 := by
      unfold formKind
      rw [if_neg h9, if_neg h10, if_neg h13, if_neg h0]
    rw [hhex, hkind, if_pos rfl]
    rfl

/-- An escaped byte is the byte itself, or starts with a backslash. -/
theorem escapeByte_head (c : UInt8) :
    (isPrintable c = true ∧ escapeByte c = [c]) ∨
      (isPrintable c = false ∧ ∃ w, escapeByte c = 92 :: w) := by
  rcases Bool.eq_false_or_eq_true (isPrintable c) with hc | hc
  · exact Or.inl ⟨hc, escapeByte_of_printable hc⟩
  · exact Or.inr ⟨hc, _, escapeByte_form hc⟩

/-! ## Strings -/

theorem foldl_escapeByte (l : List UInt8) (r : Bytes) :
    l.foldl (fun result c => result ++ escapeByte c) r = r ++ l.flatMap escapeByte := by
  induction l generalizing r with
  | nil => simp
  | cons c l ih => rw [List.foldl_cons, ih, List.flatMap_cons, List.append_assoc]

/-- The buffer overload escapes the `len` bytes it is given. -/
theorem escapeBuf_eq (buf : Nat → UInt8) (len : Nat) :
    escapeBuf buf len = ((List.range len).map buf).flatMap escapeByte := by
  unfold escapeBuf
  rw [← List.nil_append (List.flatMap _ _), ← foldl_escapeByte, List.foldl_map]

theorem escape_eq (s : Bytes) : escape s = s.flatMap escapeByte := by
  show escapeBuf (fun i => s.getD i 0) s.length = _
  rw [escapeBuf_eq]
  congr 1
  apply List.ext_getElem
  · simp
  · intro i h₁ h₂
    simp [List.getElem?_eq_getElem h₂]

theorem escape_append (s t : Bytes) : escape (s ++ t) = escape s ++ escape t := by
  rw [escape_eq, escape_eq, escape_eq, List.flatMap_append]

theorem escape_of_printable {s : Bytes} (hs : ∀ c ∈ s, isPrintable c = true) : escape s = s := by
  rw [escape_eq]
  induction s with
  | nil => rfl
  | cons c s ih =>
    rw [List.flatMap_cons, escapeByte_of_printable (hs c List.mem_cons_self),
      ih fun d hd => hs d (List.mem_cons_of_mem c hd)]
    rfl

theorem printable_escape (s : Bytes) : ∀ c ∈ escape s, isPrintable c = true := by
  rw [escape_eq]
  intro c hc
  obtain ⟨b, _, hb⟩ := List.mem_flatMap.mp hc
  exact printable_escapeByte b c hb

/-- **Escaping an escaped text changes nothing.** -/
theorem escape_idem (s : Bytes) : escape (escape s) = escape s :=
  escape_of_printable (printable_escape s)

/-- A byte that is not copied leaves its form in the result. -/
theorem form_infix_escape {t : Bytes} {c : UInt8} (hc : c ∈ t) : escapeByte c <:+: escape t := by
  obtain ⟨u, v, rfl⟩ := List.append_of_mem hc
  rw [escape_eq, List.flatMap_append, List.flatMap_cons]
  exact ⟨u.flatMap escapeByte, v.flatMap escapeByte, by rw [List.append_assoc]⟩

/-- **Which strings the log tells apart.** A string shares its escaped text with no other one
exactly when it is printable and has no escape form in it. -/
theorem escape_eq_iff_plain (s : Bytes) : (∀ t, escape s = escape t → s = t) ↔ Plain s := by
  constructor
  · intro h
    have hs : s = escape s := h _ (escape_idem s).symm
    have hprint : ∀ c ∈ s, isPrintable c = true := by
      rw [hs]
      exact printable_escape s
    refine ⟨hprint, ?_⟩
    -- a form inside `s` could as well be the byte it stands for
    rintro w hw ⟨u, v, rfl⟩
    obtain ⟨c, hc, rfl⟩ := (escapeForm_iff w).mp hw
    have hsame : escape (u ++ escapeByte c ++ v) = escape (u ++ [c] ++ v) := by
      have hform : escape (escapeByte c) = escape [c] := by
        rw [escape_of_printable (printable_escapeByte c), escape_eq, List.flatMap_singleton]
      simp only [escape_append, hform]
    have hbyte : c ∈ u ++ escapeByte c ++ v := by
      rw [h _ hsame]
      simp
    rw [hprint c hbyte] at hc
    exact absurd hc (by decide)
  · rintro ⟨hprint, hform⟩ t ht
    rw [escape_of_printable hprint] at ht
    have hplain : ∀ c ∈ t, isPrintable c = true := by
      intro c hc
      rcases Bool.eq_false_or_eq_true (isPrintable c) with h | h
      · exact h
      · exact absurd (ht ▸ form_infix_escape hc) (hform _ ((escapeForm_iff _).mpr ⟨c, h, rfl⟩))
    rw [ht, escape_of_printable hplain]

/-- A tab and the two characters that stand for it are logged alike. -/
theorem escape_not_injective : ¬ ∀ s t : Bytes, escape s = escape t → s = t := by
  intro h
  exact absurd (h [9] (ascii "\\t") (by decide)) (by decide)

/-! ## Without a backslash -/

theorem eq_of_formKind {a b : UInt8} (h : formKind a = formKind b) (hx : formKind a ≠ 120) :
    a = b := by
  unfold formKind at h hx
  grind

/-- No escaped byte starts another one. -/
theorem escapeByte_prefix_free {a b : UInt8} (ha : a ≠ 92) (hb : b ≠ 92) {u v : Bytes}
    (h : escapeByte a ++ u = escapeByte b ++ v) : a = b := by
  rcases escapeByte_head a with ⟨hpa, ea⟩ | ⟨hpa, x, ea⟩ <;>
    rcases escapeByte_head b with ⟨hpb, eb⟩ | ⟨hpb, y, eb⟩
  · rw [ea, eb] at h
    exact (List.cons.inj h).1
  · rw [ea, eb] at h
    exact absurd (List.cons.inj h).1 ha
  · rw [ea, eb] at h
    exact absurd (List.cons.inj h).1.symm hb
  · rw [escapeByte_form hpa, escapeByte_form hpb] at h
    simp only [List.cons_append, List.cons.injEq, true_and] at h
    obtain ⟨hk, hrest⟩ := h
    by_cases hx : formKind a = 120
    · rw [if_pos hx, if_pos (hk ▸ hx)] at hrest
      exact hex2_injective (List.append_inj hrest rfl).1
    · exact eq_of_formKind hk hx

theorem escapeByte_ne_nil (c : UInt8) : escapeByte c ≠ [] := by
  rcases escapeByte_head c with ⟨_, hc⟩ | ⟨_, w, hc⟩ <;> simp [hc]

/-- **Backslash-free strings are told apart.** -/
theorem escape_injOn : Set.InjOn escape {s | 92 ∉ s} := by
  intro s hs t ht h
  replace hs : 92 ∉ s := hs
  replace ht : 92 ∉ t := ht
  rw [escape_eq, escape_eq] at h
  induction s generalizing t with
  | nil =>
    rcases t with - | ⟨b, t⟩
    · rfl
    · exact absurd (List.append_eq_nil_iff.mp h.symm).1 (escapeByte_ne_nil b)
  | cons a s ih =>
    rcases t with - | ⟨b, t⟩
    · exact absurd (List.append_eq_nil_iff.mp h).1 (escapeByte_ne_nil a)
    · simp only [List.mem_cons, not_or] at hs ht
      rw [List.flatMap_cons, List.flatMap_cons] at h
      obtain rfl := escapeByte_prefix_free (Ne.symm hs.1) (Ne.symm ht.1) h
      rw [ih (List.append_cancel_left h) hs.2 ht.2]

end Domq.Base

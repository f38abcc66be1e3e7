import Domq.Jsoncpp.Reader

/-!
# The reader on any document

What `Reader::parse` does with a document of any bytes: it comes to an end, it uses no more of the
stack than the document has opening brackets and braces, and it stays inside the buffer of
`decodeDouble` unless 32 characters that numbers are made of stand in a row.

`Safe d s o` says this of the outcome `o` of reading `s` with room for `d` calls; it is proved for
`readValue` by induction on `d`, and for the loops by induction on their bounds.
-/

namespace Domq.Jsoncpp

open Domq.Lib Domq.Mq

/-! ## Documents -/

/-- The opening brackets and braces. -/
def opens (s : Bytes) : Nat := s.count 91 + s.count 123

/-- Nowhere stand 32 characters of numbers in a row. -/
def Calm (s : Bytes) : Prop :=
  ∀ run, run <:+: s → run.length = 32 → ∃ c ∈ run, isNumberChar c = false

theorem opens_suffix {r s : Bytes} (h : r <:+ s) : opens r ≤ opens s :=
  Nat.add_le_add (h.sublist.count_le _) (h.sublist.count_le _)

theorem Calm.suffix {r s : Bytes} (hs : Calm s) (h : r <:+ s) : Calm r :=
  fun run hrun => hs run (hrun.trans h.isInfix)

/-- Reading `s` with room for `d` calls comes to a safe outcome. -/
structure Safe (d : Nat) (s : Bytes) (o : Outcome Json) : Prop where
  ends : o ≠ .diverges
  ok : ∀ v rest, o = .ok v rest → rest <:+ s ∧ rest.length < s.length
  failed : ∀ rest, o = .failed rest → rest <:+ s
  deep : opens s < d → o ≠ .deep
  overrun : Calm s → o ≠ .overrun

section

variable {d : Nat} {s r : Bytes} {o : Outcome Json}

/-- What is safe on a suffix is safe on the whole. -/
theorem Safe.of_suffix (h : Safe d r o) (hs : r <:+ s) : Safe d s o where
  ends := h.ends
  ok v rest heq :=
    ⟨(h.ok v rest heq).1.trans hs, lt_of_lt_of_le (h.ok v rest heq).2 hs.length_le⟩
  failed rest heq := (h.failed rest heq).trans hs
  deep hd := h.deep (lt_of_le_of_lt (opens_suffix hs) hd)
  overrun hc := h.overrun (hc.suffix hs)

theorem safe_failed (h : r <:+ s) : Safe d s (.failed r) where
  ends := nofun
  ok := nofun
  failed rest heq := by
    cases heq
    exact h
  deep _ := nofun
  overrun _ := nofun

theorem safe_ok {v : Json} (h : r <:+ s) (hlt : r.length < s.length) : Safe d s (.ok v r) where
  ends := nofun
  ok v' rest heq := by
    cases heq
    exact ⟨h, hlt⟩
  failed := nofun
  deep _ := nofun
  overrun _ := nofun

/-! ## Errors -/

theorem recoverFromError_failed {α : Type} (type : TokenType) (n : Nat) (s : Bytes)
    (hn : s.length < n) :
    ∃ rest, (recoverFromError type n s : Outcome α) = .failed rest ∧ rest <:+ s := by
  induction n generalizing s with
  | zero => omega
  | succ n ih =>
    have hstep : (recoverFromError type (n + 1) s : Outcome α) =
        if (readToken s).1.type = type ∨ (readToken s).1.type = .endOfStream then
          .failed (readToken s).2
        else recoverFromError type n (readToken s).2 := rfl
    rw [hstep]
    by_cases h : (readToken s).1.type = type ∨ (readToken s).1.type = .endOfStream
    · exact ⟨_, if_pos h, readToken_suffix s⟩
    · have hlt := readToken_shorter (s := s) fun he => h (.inr he)
      obtain ⟨rest, heq, hrest⟩ := ih (readToken s).2 (by omega)
      exact ⟨rest, by rw [if_neg h, heq], hrest.trans (readToken_suffix s)⟩

/-- Recovering from an error skips a part of the document. -/
theorem safe_recover (type : TokenType) (h : r <:+ s) : Safe d s (recover type r) := by
  obtain ⟨rest, heq, hrest⟩ := recoverFromError_failed (α := Json) type (r.length + 1) r
    (Nat.lt_succ_self _)
  rw [recover, heq]
  exact safe_failed (hrest.trans h)

/-! ## Numbers -/

/-- In a calm document a token of number characters is shorter than 32. -/
theorem Calm.length_lt {text : Bytes} (hc : Calm s) (h : text ++ r <:+ s)
    (hnum : ∀ c ∈ text, isNumberChar c = true) : text.length < 32 := by
  by_contra hlong
  have hrun : text.take 32 <:+: s :=
    ((List.take_prefix 32 text).trans (List.prefix_append text r)).isInfix.trans h.isInfix
  obtain ⟨c, hmem, hfalse⟩ := hc _ hrun (by rw [List.length_take]; omega)
  rw [hnum c (List.mem_of_mem_take hmem)] at hfalse
  cases hfalse

theorem safe_decodeDouble (scan : Bytes → Option Double) {text : Bytes} (h : text ++ r <:+ s)
    (hnum : ∀ c ∈ text, isNumberChar c = true) (hr : r.length < s.length) :
    Safe d s (decodeDouble scan text r) := by
  have hsuffix : r <:+ s := (List.suffix_append text r).trans h
  unfold decodeDouble
  dsimp only
  split
  · next hlong =>
    refine ⟨nofun, nofun, nofun, fun _ => nofun, fun hc _ => ?_⟩
    have hlt := hc.length_lt h hnum
    have hint : (Int32.ofNat text.length).toInt = text.length :=
      Int32.toInt_ofNat_of_lt (by omega)
    omega
  · cases scan text with
    | none => exact safe_failed hsuffix
    | some trunc => exact safe_ok hsuffix hr

theorem safe_decodeNumber (scan : Bytes → Option Double) {text : Bytes} (h : text ++ r <:+ s)
    (hnum : ∀ c ∈ text, isNumberChar c = true) (hr : r.length < s.length) :
    Safe d s (decodeNumber scan text r) := by
  have hsuffix : r <:+ s := (List.suffix_append text r).trans h
  unfold decodeNumber
  split
  · exact safe_decodeDouble scan h hnum hr
  · dsimp only
    split
    · exact safe_failed hsuffix
    · exact safe_decodeDouble scan h hnum hr
    · split
      · exact safe_ok hsuffix hr
      · split
        · exact safe_ok hsuffix hr
        · exact safe_ok hsuffix hr

end

/-! ## Arrays and objects -/

section

variable {d : Nat} {rv : Bytes → Outcome Json}

theorem safe_readElements (hrv : ∀ s, Safe d s (rv s)) (n : Nat) (elements : List Json) (s : Bytes)
    (hn : s.length < n) : Safe d s (readElements rv n elements s) := by
  induction n generalizing elements s with
  | zero => omega
  | succ n ih =>
    have hs := hrv s
    rw [readElements]
    cases hv : rv s with
    | ok value rest =>
      obtain ⟨hrest, hlt⟩ := hs.ok value rest hv
      have hnext := nextToken_suffix rest
      dsimp only
      split
      · exact safe_ok (hnext.trans hrest) (lt_of_le_of_lt hnext.length_le hlt)
      · have := hnext.length_le
        exact (ih _ _ (by omega)).of_suffix (hnext.trans hrest)
    | failed rest => exact safe_recover .arrayEnd (hs.failed rest hv)
    | overrun =>
      rw [hv] at hs
      exact hs
    | deep =>
      rw [hv] at hs
      exact hs
    | diverges => exact absurd hv hs.ends

theorem safe_readArray (hrv : ∀ s, Safe d s (rv s)) (s : Bytes) : Safe d s (readArray rv s) := by
  have hskip := skipSpaces_suffix s
  unfold readArray
  dsimp only
  split
  · next hhead =>
    obtain ⟨t, ht⟩ := List.head?_eq_some_iff.mp hhead
    have hread : readToken (93 :: t) = (⟨.arrayEnd, [93]⟩, t) :=
      readToken_of (w := []) (t := []) isWs_nil (by decide) rfl
    rw [ht] at hskip ⊢
    rw [hread]
    exact safe_ok ((List.suffix_cons 93 t).trans hskip) hskip.length_le
  · exact (safe_readElements hrv _ _ _ (Nat.lt_succ_self _)).of_suffix hskip

theorem readComma_suffix {s r : Bytes} {comma : Token} (h : readComma s = some (comma, r)) :
    r <:+ s := by
  have hread := readToken_suffix s
  have hcomma : readComma s =
      if (readToken s).1.type = .objectEnd ∨ (readToken s).1.type = .arraySeparator then
        some (readToken s)
      else if (readToken s).1.type = .comment then some (nextToken (readToken s).2)
      else none := rfl
  rw [hcomma] at h
  split_ifs at h
  · rw [Option.some.inj h] at hread
    exact hread
  · have hnext := nextToken_suffix (readToken s).2
    rw [Option.some.inj h] at hnext
    exact hnext.trans hread

theorem safe_readMembers (hrv : ∀ s, Safe d s (rv s)) (n : Nat) (name : Bytes)
    (members : List (CStr × Json)) (s : Bytes) (hn : s.length < n) :
    Safe d s (readMembers rv n name members s) := by
  induction n generalizing name members s with
  | zero => omega
  | succ n ih =>
    have hname := nextToken_suffix s
    have hcolon := (readToken_suffix (nextToken s).2).trans hname
    rw [readMembers]
    dsimp only
    split
    · next h => exact safe_ok hname (nextToken_shorter (by rw [h.1]; decide))
    · split
      · exact safe_recover .objectEnd hname
      · next hstring =>
        have hshort := nextToken_shorter (s := s) (by rw [not_not.mp hstring]; decide)
        split
        · exact safe_recover .objectEnd hname
        · split
          · exact safe_recover .objectEnd hcolon
          · have hv := hrv (readToken (nextToken s).2).2
            split
            · next value rest heq =>
              obtain ⟨hrest, -⟩ := hv.ok value rest heq
              have hsuffix := hrest.trans hcolon
              split
              · exact safe_recover .objectEnd ((readToken_suffix rest).trans hsuffix)
              · next comma rest' hcomma =>
                have hrest' := readComma_suffix hcomma
                have hlen := (hrest'.trans (hrest.trans (readToken_suffix _))).length_le
                split
                · exact safe_ok (hrest'.trans hsuffix) (lt_of_le_of_lt hlen hshort)
                · exact (ih _ _ _ (by omega)).of_suffix (hrest'.trans hsuffix)
            · next rest heq => exact safe_recover .objectEnd ((hv.failed rest heq).trans hcolon)
            · next heq => exact (heq ▸ hv).of_suffix hcolon
            · next heq => exact (heq ▸ hv).of_suffix hcolon
            · next heq => exact absurd heq hv.ends

theorem safe_readObject (hrv : ∀ s, Safe d s (rv s)) (s : Bytes) :
    Safe d s (readObject rv s) := safe_readMembers hrv _ _ _ s (Nat.lt_succ_self _)

end

/-! ## Values -/

/-- A value in brackets or braces needs one call more than what is in it. -/
theorem Safe.nest {d : Nat} {s r : Bytes} {o : Outcome Json} (h : Safe d r o) (hs : r <:+ s)
    (hopens : opens r < opens s) : Safe (d + 1) s o where
  ends := h.ends
  ok := (h.of_suffix hs).ok
  failed := (h.of_suffix hs).failed
  deep hd := h.deep (by omega)
  overrun := (h.of_suffix hs).overrun

theorem opens_lt {text r s : Bytes} (h : text = [123] ∨ text = [91]) (hs : text ++ r <:+ s) :
    opens r < opens s := by
  refine lt_of_lt_of_le ?_ (opens_suffix hs)
  rcases h with rfl | rfl
  · simp [opens]
  · simp [opens]

theorem safe_readValue (scan : Bytes → Option Double) (d : Nat) (s : Bytes) :
    Safe d s (readValue scan d s) := by
  induction d generalizing s with
  | zero => exact ⟨nofun, nofun, nofun, fun h => absurd h (Nat.not_lt_zero _), fun _ => nofun⟩
  | succ d ih =>
    have hsuffix := nextToken_suffix s
    have htext := nextToken_text s
    obtain ⟨hobject, harray, hnumber⟩ := nextToken_shape s
    have hshort : (nextToken s).1.type ≠ .endOfStream → _ := nextToken_shorter
    rw [readValue]
    dsimp only
    split
    · next h => exact (safe_readObject ih _).nest hsuffix (opens_lt (.inl (hobject h)) htext)
    · next h => exact (safe_readArray ih _).nest hsuffix (opens_lt (.inr (harray h)) htext)
    · next h => exact safe_decodeNumber scan htext (hnumber h) (hshort (by rw [h]; decide))
    · next h =>
      split
      · exact safe_failed hsuffix
      · exact safe_ok hsuffix (hshort (by rw [h]; decide))
    · next h => exact safe_ok hsuffix (hshort (by rw [h]; decide))
    · next h => exact safe_ok hsuffix (hshort (by rw [h]; decide))
    · next h => exact safe_ok hsuffix (hshort (by rw [h]; decide))
    · exact safe_failed hsuffix

/-- **`parse` on any document.** It ends, and where it skips comments it comes to a token behind
them; it needs no more calls than there are opening brackets and braces, and one; and it stays
inside the buffer where no 32 characters of numbers stand in a row. -/
theorem parse_safe (scan : Bytes → Option Double) (depth : Nat) (document : Bytes) :
    parse scan depth document ≠ .diverges ∧ (∀ s, (nextToken s).1.type ≠ .comment) ∧
      (opens document < depth → parse scan depth document ≠ .deep) ∧
      (Calm document → parse scan depth document ≠ .overrun) := by
  have h := safe_readValue scan depth document
  unfold parse
  cases hv : readValue scan depth document with
  | ok root rest => exact ⟨nofun, nextToken_ne_comment, fun _ => nofun, fun _ => nofun⟩
  | failed rest => exact ⟨nofun, nextToken_ne_comment, fun _ => nofun, fun _ => nofun⟩
  | overrun =>
    exact ⟨nofun, nextToken_ne_comment, fun _ => nofun, fun hc => absurd hv (h.overrun hc)⟩
  | deep => exact ⟨nofun, nextToken_ne_comment, fun hd => absurd hv (h.deep hd), fun _ => nofun⟩
  | diverges => exact absurd hv h.ends

end Domq.Jsoncpp

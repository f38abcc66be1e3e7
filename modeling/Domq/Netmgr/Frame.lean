import Domq.Lib.Chunks
import Domq.Base.MemBlock

/-!
# Frames

A message on a connection is a frame: its length as four bytes in network order, the length field
included, and the payload. `ICoder::Extract` (`coder.cpp`) cuts frames off the received bytes and
has each payload decoded; `NetMgrEventHandler::HandleInput` (`eventhandler.cpp`) appends what `recv`
delivers to `_recvbuffer`, calls `Extract`, and moves the rest to the front.

* `ans i` is the outcome of the `i`-th `Decode` on the connection, whatever it depends on; a payload
  is decoded as the slice (offset and length) of the buffer that is passed to it.
* `size_t` arithmetic is modulo `2 ^ 64`; the result is converted to `int`.
* The loop need not end, so `extract` has a bound on its turns.

Results: `extract_safe_iff`: `Extract` is safe on a buffer exactly if it reaches no length field
below four; `framing`: a stream of frames, however it is cut into pieces, is decoded frame by frame.
-/

namespace Domq.Netmgr

open Domq.Lib Domq.Base

/-! ## `ICoder::Extract` -/

/-- `_headLen`. -/
def headLen : Nat := 4

/-- `ntohl` of the first four bytes. -/
def ntohl (l : Bytes) : Nat :=
  (l.getD 0 0).toNat * 2 ^ 24 + (l.getD 1 0).toNat * 2 ^ 16 + (l.getD 2 0).toNat * 2 ^ 8 +
    (l.getD 3 0).toNat

/-- The four bytes of `htonl`. -/
def htonl (n : Nat) : Bytes :=
  [UInt8.ofNat (n / 2 ^ 24), UInt8.ofNat (n / 2 ^ 16), UInt8.ofNat (n / 2 ^ 8), UInt8.ofNat n]

/-- What `Extract` returns, the slices it passes to `Decode`, and those whose message it passes to
the callback. -/
structure Extracted where
  ret : Int
  decoded : List (Nat × Nat)
  delivered : List (Nat × Nat)
  deriving DecidableEq

/-- The loop of `ICoder::Extract`, `pos` being the offset of `ptr` and `n` counting the calls of
`Decode`. -/
def extractLoop (buf : Bytes) (ans : Nat → Bool) :
    (fuel n pos len used : Nat) → Option Extracted
  | 0, _, _, _, _ => none
  | fuel + 1, n, pos, len, used =>
    if len ≤ headLen then some ⟨(Int32.ofNat used).toInt, [], []⟩
    else
      let bodyLen := ntohl (buf.drop pos)
      if len < bodyLen then some ⟨(Int32.ofNat used).toInt, [], []⟩
      else
        let slice := (pos + headLen, (bodyLen + (2 ^ 64 - headLen)) % 2 ^ 64)
        if ans n then
          (extractLoop buf ans fuel (n + 1) (pos + bodyLen) (len - bodyLen) (used + bodyLen)).map
            fun r => ⟨r.ret, slice :: r.decoded, slice :: r.delivered⟩
        else some ⟨-1, [slice], []⟩

/-- `ICoder::Extract` on a buffer; `none` when its loop takes more than `fuel` turns. -/
def extract (fuel : Nat) (buf : Bytes) (ans : Nat → Bool) : Option Extracted :=
  extractLoop buf ans fuel 0 0 buf.length 0

theorem ntohl_lt (l : Bytes) : ntohl l < 2 ^ 32 := by
  have h₀ := (l.getD 0 0).toNat_lt
  have h₁ := (l.getD 1 0).toNat_lt
  have h₂ := (l.getD 2 0).toNat_lt
  have h₃ := (l.getD 3 0).toNat_lt
  unfold ntohl
  omega

/-! ## Safety on any input -/

/-- `Extract` ends, passes only slices inside the buffer to `Decode`, and its result, when it is no
error, is at most the length of the buffer. -/
def Safe (buf : Bytes) (ans : Nat → Bool) : Prop :=
  ∃ fuel r, extract fuel buf ans = some r ∧ (∀ s ∈ r.decoded, s.1 + s.2 ≤ buf.length) ∧
    (0 ≤ r.ret → r.ret ≤ buf.length)

/-- `Extract` reaches a length field below four: the frames before it are complete and decoded, and
more than four bytes are left. -/
inductive ShortField (ans : Nat → Bool) : Nat → Bytes → Prop
  | here {n : Nat} {l : Bytes} (hl : headLen < l.length) (hs : ntohl l < headLen) :
      ShortField ans n l
  | next {n : Nat} {l : Bytes} (hl : headLen < l.length) (hs : headLen ≤ ntohl l)
      (hle : ntohl l ≤ l.length) (ha : ans n = true)
      (h : ShortField ans (n + 1) (l.drop (ntohl l))) : ShortField ans n l

theorem toInt_ofNat_le {n : Nat} (h : 0 ≤ (Int32.ofNat n).toInt) : (Int32.ofNat n).toInt ≤ n := by
  have hmod : (Int32.ofNat n).toInt = (n : Int).bmod (2 ^ 32) := by
    simp [Int32.size]
  rw [hmod, Int.bmod_def] at h ⊢
  omega

/-- A slice behind a length field below four is not in the buffer. -/
theorem slice_outside {k len pos : Nat} (hk : k < headLen) (hlen : len < 2 ^ 64) :
    ¬ pos + headLen + (k + (2 ^ 64 - headLen)) % 2 ^ 64 ≤ len := by
  unfold headLen at hk ⊢
  have hmod : (k + (2 ^ 64 - 4)) % 2 ^ 64 = k + (2 ^ 64 - 4) := Nat.mod_eq_of_lt (by omega)
  rw [hmod]
  omega

/-- A slice behind a proper length field is the payload. -/
theorem slice_length {k : Nat} (hk : headLen ≤ k) (hlt : k < 2 ^ 32) :
    (k + (2 ^ 64 - headLen)) % 2 ^ 64 = k - headLen := by
  unfold headLen at hk ⊢
  omega

/-- The loop when more than four bytes are left and the frame is complete. -/
theorem extractLoop_frame {buf : Bytes} {ans : Nat → Bool} {l : Bytes} {pos : Nat}
    (hl : buf.drop pos = l) (hlen : headLen < l.length) (hle : ntohl l ≤ l.length)
    (fuel n used : Nat) :
    extractLoop buf ans (fuel + 1) n pos l.length used =
      if ans n then
        (extractLoop buf ans fuel (n + 1) (pos + ntohl l) (l.drop (ntohl l)).length
          (used + ntohl l)).map fun r =>
            ⟨r.ret, (pos + headLen, (ntohl l + (2 ^ 64 - headLen)) % 2 ^ 64) :: r.decoded,
              (pos + headLen, (ntohl l + (2 ^ 64 - headLen)) % 2 ^ 64) :: r.delivered⟩
      else some ⟨-1, [(pos + headLen, (ntohl l + (2 ^ 64 - headLen)) % 2 ^ 64)], []⟩ := by
  rw [extractLoop, if_neg (by omega)]
  simp only [hl]
  rw [if_neg (by omega), List.length_drop]

/-- The loop when it stops. -/
theorem extractLoop_stop {buf : Bytes} {ans : Nat → Bool} {l : Bytes} {pos : Nat}
    (hl : buf.drop pos = l) (h : l.length ≤ headLen ∨ l.length < ntohl l) (fuel n used : Nat) :
    extractLoop buf ans (fuel + 1) n pos l.length used =
      some ⟨(Int32.ofNat used).toInt, [], []⟩ := by
  rw [extractLoop]
  by_cases hlen : l.length ≤ headLen
  · rw [if_pos hlen]
  · rw [if_neg hlen]
    simp only [hl]
    rw [if_pos (h.resolve_left hlen)]

/-- When a short field is reached, some slice is not in the buffer, or the loop does not end. -/
theorem ShortField.outside {buf : Bytes} {ans : Nat → Bool} {n : Nat} {l : Bytes}
    (h : ShortField ans n l) (hbuf : buf.length < 2 ^ 64) {fuel pos used : Nat} {r : Extracted}
    (hl : buf.drop pos = l) (hr : extractLoop buf ans fuel n pos l.length used = some r) :
    ∃ s ∈ r.decoded, ¬ s.1 + s.2 ≤ buf.length := by
  induction h generalizing fuel pos used r with
  | here hlen hs =>
    cases fuel with
    | zero => cases hr
    | succ fuel =>
      rw [extractLoop_frame hl hlen (by omega)] at hr
      split at hr
      · obtain ⟨r', -, rfl⟩ := Option.map_eq_some_iff.mp hr
        exact ⟨_, List.mem_cons_self, slice_outside hs hbuf⟩
      · cases hr
        exact ⟨_, List.mem_cons_self, slice_outside hs hbuf⟩
  | next hlen hs hle ha _ ih =>
    cases fuel with
    | zero => cases hr
    | succ fuel =>
      rw [extractLoop_frame hl hlen hle, if_pos ha] at hr
      obtain ⟨r', hr', rfl⟩ := Option.map_eq_some_iff.mp hr
      obtain ⟨s, hs, hout⟩ := ih (by rw [← hl, List.drop_drop]) hr'
      exact ⟨s, List.mem_cons_of_mem _ hs, hout⟩

/-- Without a short field the loop ends, and stays inside the buffer. -/
theorem extractLoop_safe {buf : Bytes} {ans : Nat → Bool} (fuel : Nat) {n : Nat} {l : Bytes}
    (h : ¬ ShortField ans n l) {pos : Nat} (hl : buf.drop pos = l)
    (hpos : pos + l.length = buf.length) (hfuel : l.length < fuel) :
    ∃ r, extractLoop buf ans fuel n pos l.length pos = some r ∧
      (∀ s ∈ r.decoded, s.1 + s.2 ≤ buf.length) ∧ (0 ≤ r.ret → r.ret ≤ buf.length) := by
  induction fuel generalizing n l pos with
  | zero => exact absurd hfuel (Nat.not_lt_zero _)
  | succ fuel ih =>
    by_cases hstop : l.length ≤ headLen ∨ l.length < ntohl l
    · refine ⟨_, extractLoop_stop hl hstop fuel n pos, by simp, fun hret => ?_⟩
      have hle := toInt_ofNat_le hret
      simp only
      omega
    · have hlen : headLen < l.length := by omega
      have hle : ntohl l ≤ l.length := by omega
      have hfield : headLen ≤ ntohl l := by
        by_contra hs
        exact h (.here hlen (by omega))
      have hhead : headLen = 4 := rfl
      have hin : pos + headLen + (ntohl l + (2 ^ 64 - headLen)) % 2 ^ 64 ≤ buf.length := by
        rw [slice_length hfield (ntohl_lt l)]
        omega
      rw [extractLoop_frame hl hlen hle]
      by_cases ha : ans n = true
      · have hdrop : buf.drop (pos + ntohl l) = l.drop (ntohl l) := by
          rw [← hl, List.drop_drop]
        obtain ⟨r, hr, hdec, hret⟩ := ih (fun hs => h (.next hlen hfield hle ha hs)) hdrop
          (by rw [List.length_drop]; omega) (by rw [List.length_drop]; omega)
        rw [if_pos ha, hr]
        refine ⟨_, rfl, fun s hs => ?_, hret⟩
        rcases List.mem_cons.mp hs with rfl | hs
        · exact hin
        · exact hdec s hs
      · rw [if_neg ha]
        refine ⟨_, rfl, fun s hs => ?_, fun hret => absurd hret ?_⟩
        · rw [List.mem_singleton.mp hs]
          exact hin
        · show ¬ (0 : Int) ≤ -1
          decide

/-- **Hostile input.** `Extract` is safe on a buffer exactly if it reaches no length field below
four in it. -/
theorem extract_safe_iff {buf : Bytes} (hbuf : buf.length < 2 ^ 64) (ans : Nat → Bool) :
    Safe buf ans ↔ ¬ ShortField ans 0 buf := by
  constructor
  · rintro ⟨fuel, r, hr, hin, -⟩ hshort
    obtain ⟨s, hs, hout⟩ := hshort.outside hbuf rfl hr
    exact hout (hin s hs)
  · intro h
    obtain ⟨r, hr, hin, hret⟩ :=
      extractLoop_safe (buf.length + 1) h rfl (Nat.zero_add _) (Nat.lt_succ_self _)
    exact ⟨_, r, hr, hin, hret⟩

/-- A length field of zero: the slice passed to `Decode` is not in the buffer. -/
theorem extract_not_safe :
    ¬ ∀ (buf : Bytes) (ans : Nat → Bool), buf.length < 2 ^ 64 → Safe buf ans := by
  intro h
  obtain ⟨fuel, r, hr, hin, -⟩ := h [0, 0, 0, 0, 0] (fun _ => false) (by decide)
  have hshort : ShortField (fun _ => false) 0 [0, 0, 0, 0, 0] := .here (by decide) (by decide)
  obtain ⟨s, hs, hout⟩ := hshort.outside (by decide) rfl hr
  exact hout (hin s hs)

theorem extract_safe_one_frame : Safe [0, 0, 0, 5, 120] fun _ => true := by
  refine (extract_safe_iff (by decide) _).mpr fun h => ?_
  cases h with
  | here _ hs => exact absurd hs (by decide)
  | next _ _ _ _ h =>
    cases h with
    | here hl _ => exact absurd hl (by decide)
    | next hl _ _ _ _ => exact absurd hl (by decide)

/-! ## Streams of frames -/

/-- A frame, as `JsonCoder::Encode` and `JsonRpcCoder::Encode` build it. -/
def frame (p : Bytes) : Bytes := htonl (p.length + headLen) ++ p

/-- The frames of a list of payloads, one behind the other. -/
def stream (ps : List Bytes) : Bytes := (ps.map frame).flatten

/-- The first frame, when it is complete. -/
def cutFrame (l : Bytes) : Option (Bytes × Bytes) :=
  if headLen < l.length ∧ headLen ≤ ntohl l ∧ ntohl l ≤ l.length then
    some ((l.take (ntohl l)).drop headLen, l.drop (ntohl l))
  else none

theorem four_bytes {l : Bytes} (h : headLen ≤ l.length) :
    ∃ a b c d t, l = a :: b :: c :: d :: t := by
  match l, h with
  | a :: b :: c :: d :: t, _ => exact ⟨a, b, c, d, t, rfl⟩

theorem ntohl_append {l : Bytes} (h : headLen ≤ l.length) (m : Bytes) :
    ntohl (l ++ m) = ntohl l := by
  obtain ⟨a, b, c, d, t, rfl⟩ := four_bytes h
  rfl

theorem ntohl_htonl {n : Nat} (hn : n < 2 ^ 32) (l : Bytes) : ntohl (htonl n ++ l) = n := by
  have h : ntohl (htonl n ++ l) = (UInt8.ofNat (n / 2 ^ 24)).toNat * 2 ^ 24 +
      (UInt8.ofNat (n / 2 ^ 16)).toNat * 2 ^ 16 + (UInt8.ofNat (n / 2 ^ 8)).toNat * 2 ^ 8 +
      (UInt8.ofNat n).toNat := rfl
  rw [h]
  simp only [UInt8.toNat_ofNat']
  omega

/-- The four bytes of a length field. -/
theorem htonl_ntohl {l : Bytes} (h : headLen ≤ l.length) : htonl (ntohl l) = l.take headLen := by
  obtain ⟨a, b, c, d, t, rfl⟩ := four_bytes h
  have ha := a.toNat_lt
  have hb := b.toNat_lt
  have hc := c.toNat_lt
  have hd := d.toNat_lt
  have hn : ntohl (a :: b :: c :: d :: t) =
      a.toNat * 2 ^ 24 + b.toNat * 2 ^ 16 + c.toNat * 2 ^ 8 + d.toNat := rfl
  have hbyte : ∀ (x : UInt8) (n : Nat), n % 2 ^ 8 = x.toNat → UInt8.ofNat n = x := by
    intro x n hx
    apply UInt8.toNat_inj.mp
    rw [UInt8.toNat_ofNat', hx]
  rw [hn]
  unfold htonl
  rw [hbyte a _ (by omega), hbyte b _ (by omega), hbyte c _ (by omega), hbyte d _ (by omega)]
  rfl

/-- Frames are cut off the front. -/
def frames : Cutter UInt8 Bytes where
  cut := cutFrame
  shorter := by
    intro l p r h
    unfold cutFrame at h
    split at h
    · rename_i hc
      cases h
      have hhead : headLen = 4 := rfl
      rw [List.length_drop]
      omega
    · cases h
  stable := by
    intro l p r m h
    unfold cutFrame at h
    split at h
    · rename_i hc
      cases h
      have hn : ntohl (l ++ m) = ntohl l := ntohl_append hc.1.le m
      unfold cutFrame
      rw [hn, if_pos ⟨by rw [List.length_append]; omega, hc.2.1, by rw [List.length_append]; omega⟩,
        List.take_append_of_le_length hc.2.2, List.drop_append_of_le_length hc.2.2]
    · cases h

theorem cut_eq {l p r : Bytes} (h : frames.cut l = some (p, r)) : l = frame p ++ r := by
  simp only [frames, cutFrame] at h
  split at h
  · rename_i hc
    cases h
    have hlen : ((l.take (ntohl l)).drop headLen).length + headLen = ntohl l := by
      rw [List.length_drop, List.length_take]
      omega
    have hsplit : l.take headLen ++ (l.take (ntohl l)).drop headLen = l.take (ntohl l) := by
      have hhead : l.take headLen = (l.take (ntohl l)).take headLen := by
        rw [List.take_take, Nat.min_eq_left hc.2.1]
      rw [hhead, List.take_append_drop]
    unfold frame
    rw [hlen, htonl_ntohl hc.1.le, hsplit, List.take_append_drop]
  · cases h

theorem length_frame (p : Bytes) : (frame p).length = p.length + headLen := by
  unfold frame
  rw [List.length_append, Nat.add_comm]
  rfl

theorem cut_frame {p : Bytes} (hp : p ≠ []) (hlen : p.length + headLen < 2 ^ 32) (l : Bytes) :
    frames.cut (frame p ++ l) = some (p, l) := by
  have hn : ntohl (frame p ++ l) = (frame p).length := by
    rw [length_frame, frame, List.append_assoc, ntohl_htonl hlen]
  have hpos : 0 < p.length := List.length_pos_of_ne_nil hp
  have hl : (frame p ++ l).length = p.length + headLen + l.length := by
    rw [List.length_append, length_frame]
  simp only [frames, cutFrame]
  rw [if_pos ⟨by omega, by rw [hn, length_frame]; omega, by rw [hn, length_frame]; omega⟩, hn,
    List.take_left, List.drop_left]
  rfl

theorem stream_cons (p : Bytes) (ps : List Bytes) : stream (p :: ps) = frame p ++ stream ps := by
  simp [stream]

theorem stream_append (ps ps' : List Bytes) : stream (ps ++ ps') = stream ps ++ stream ps' := by
  simp [stream]

/-- A frame is no longer than its stream. -/
theorem length_frame_lt {ps : List Bytes} (hlen : (stream ps).length < 2 ^ 31) :
    ∀ p ∈ ps, (frame p).length < 2 ^ 32 := by
  intro p hp
  obtain ⟨l, r, rfl⟩ := List.append_of_mem hp
  rw [stream_append, stream_cons, List.length_append, List.length_append] at hlen
  omega

/-- A stream is cut into its frames. -/
theorem cuts_stream {ps : List Bytes} (hne : ∀ p ∈ ps, p ≠ [])
    (hlen : ∀ p ∈ ps, (frame p).length < 2 ^ 32) : Cuts frames (stream ps) ps [] := by
  induction ps with
  | nil => exact .done rfl
  | cons p ps ih =>
    have hp := hlen p List.mem_cons_self
    rw [length_frame] at hp
    rw [stream_cons]
    exact .item (cut_frame (hne p List.mem_cons_self) hp _)
      (ih (fun p' hp' => hne p' (List.mem_cons_of_mem _ hp'))
        fun p' hp' => hlen p' (List.mem_cons_of_mem _ hp'))

theorem eq_of_cuts {l r : Bytes} {ps : List Bytes} (h : Cuts frames l ps r) :
    l = stream ps ++ r := by
  induction h with
  | done _ => rfl
  | item hcut _ ih =>
    rw [cut_eq hcut, stream_cons, List.append_assoc, ← ih]

/-- What is left of a part of a stream: the beginning of a frame, or nothing. -/
theorem cuts_take_stream {ps bs : List Bytes} {l m r : Bytes} (hne : ∀ p ∈ ps, p ≠ [])
    (hlen : ∀ p ∈ ps, (frame p).length < 2 ^ 32) (hl : l ++ m = stream ps)
    (h : Cuts frames l bs r) :
    ∃ bs', ps = bs ++ bs' ∧ r ++ m = stream bs' ∧ (r.length ≤ headLen ∨ r.length < ntohl r) ∧
      (bs' = [] ∧ r = [] ∨ ∃ p bs'', bs' = p :: bs'' ∧ r.length < (frame p).length) := by
  obtain ⟨bs', r', h'⟩ := frames.cuts_exists (r ++ m)
  have hall := h.append h'
  rw [hl] at hall
  obtain ⟨hps, hr'⟩ := hall.unique (cuts_stream hne hlen)
  subst hr' hps
  have hm : r ++ m = stream bs' := by
    rw [eq_of_cuts h', List.append_nil]
  refine ⟨bs', rfl, hm, ?_⟩
  cases bs' with
  | nil =>
    obtain ⟨rfl, -⟩ := List.append_eq_nil_iff.mp hm
    exact ⟨.inl (Nat.zero_le _), .inl ⟨rfl, rfl⟩⟩
  | cons p bs'' =>
    have hcut := h.cut_rest
    rw [stream_cons] at hm
    by_cases hshort : r.length ≤ headLen
    · refine ⟨.inl hshort, .inr ⟨p, bs'', rfl, ?_⟩⟩
      have hp : 0 < p.length := List.length_pos_of_ne_nil (hne p (by simp))
      rw [length_frame]
      omega
    · -- the length field is complete, the frame is not
      have hplen : p.length + headLen < 2 ^ 32 := by
        rw [← length_frame]
        exact hlen p (by simp)
      have hn : ntohl r = p.length + headLen := by
        have happ := ntohl_append (l := r) (by omega) m
        rw [hm, frame, List.append_assoc, ntohl_htonl hplen] at happ
        exact happ.symm
      have hlt : r.length < ntohl r := by
        by_contra hge
        have hsome : frames.cut r = some ((r.take (ntohl r)).drop headLen, r.drop (ntohl r)) := by
          simp only [frames, cutFrame]
          rw [if_pos ⟨by omega, by omega, by omega⟩]
        rw [hcut] at hsome
        cases hsome
      exact ⟨.inr hlt, .inr ⟨p, bs'', rfl, by rw [length_frame, ← hn]; exact hlt⟩⟩

/-! ## `Extract` on a stream -/

/-- The bytes of a slice. -/
def slice (buf : Bytes) (s : Nat × Nat) : Bytes := (buf.drop s.1).take s.2

/-- The payloads that are decoded: up to the first that fails. -/
def asked (ans : Nat → Bool) : Nat → List Bytes → List Bytes
  | _, [] => []
  | n, p :: ps => p :: if ans n then asked ans (n + 1) ps else []

/-- The payloads whose messages are delivered: those before the first that fails. -/
def accepted (ans : Nat → Bool) : Nat → List Bytes → List Bytes
  | _, [] => []
  | n, p :: ps => if ans n then p :: accepted ans (n + 1) ps else []

theorem extractLoop_cuts {buf : Bytes} (ans : Nat → Bool) {l r : Bytes} {bs : List Bytes}
    (h : Cuts frames l bs r) (hstop : r.length ≤ headLen ∨ r.length < ntohl r)
    (hbuf : buf.length < 2 ^ 31) (fuel n : Nat) {pos : Nat} (hl : buf.drop pos = l)
    (hpos : pos + l.length = buf.length) (hfuel : l.length < fuel) :
    ∃ x, extractLoop buf ans fuel n pos l.length pos = some x ∧
      x.decoded.map (slice buf) = asked ans n bs ∧ x.delivered.map (slice buf) = accepted ans n bs ∧
      x.ret = if accepted ans n bs = bs then ((buf.length - r.length : Nat) : Int) else -1 := by
  obtain ⟨fuel, rfl⟩ : ∃ f, fuel = f + 1 := ⟨fuel - 1, by omega⟩
  induction h generalizing fuel n pos with
  | done hcut =>
    rename_i l
    refine ⟨_, extractLoop_stop hl hstop fuel n pos, rfl, rfl, ?_⟩
    have hp : buf.length - l.length = pos := by omega
    rw [accepted, if_pos rfl, hp]
    exact Int32.toInt_ofNat_of_lt (by omega)
  | item hcut ht ih =>
    rename_i l l' r p bs
    simp only [frames, cutFrame] at hcut
    split at hcut
    · rename_i hc
      cases hcut
      have hhead : headLen = 4 := rfl
      have hdrop : buf.drop (pos + ntohl l) = l.drop (ntohl l) := by
        rw [← hl, List.drop_drop]
      have hslice : slice buf (pos + headLen, (ntohl l + (2 ^ 64 - headLen)) % 2 ^ 64) =
          (l.take (ntohl l)).drop headLen := by
        unfold slice
        rw [slice_length hc.2.1 (ntohl_lt l), ← List.drop_drop, hl, List.drop_take]
      rw [extractLoop_frame hl hc.1 hc.2.2]
      by_cases ha : ans n = true
      · obtain ⟨f, rfl⟩ : ∃ f, fuel = f + 1 := ⟨fuel - 1, by omega⟩
        obtain ⟨x, hx, hdec, hdel, hret⟩ := ih hstop (n + 1) hdrop
          (by rw [List.length_drop]; omega) f (by rw [List.length_drop]; omega)
        rw [if_pos ha, hx]
        refine ⟨_, rfl, ?_, ?_, ?_⟩
        · simp only [List.map_cons, hslice, hdec, asked, if_pos ha]
        · simp only [List.map_cons, hslice, hdel, accepted, if_pos ha]
        · simp only [accepted, if_pos ha, List.cons.injEq, true_and]
          exact hret
      · rw [if_neg ha]
        refine ⟨_, rfl, ?_, ?_, ?_⟩
        · simp only [List.map_cons, List.map_nil, hslice, asked, if_neg ha]
        · simp only [List.map_nil, accepted, if_neg ha]
        · rw [accepted, if_neg ha, if_neg (by simp)]
    · cases hcut

/-! ## `NetMgrEventHandler::HandleInput` -/

/-- `RECV_SIZE`. -/
def RECV_SIZE : Nat := 16384

/-- A connection, with the payloads decoded and delivered so far. -/
structure Handler where
  recvbuffer : MemBlock
  decoded : List Bytes
  delivered : List Bytes
  closed : Bool

/-- A connection that has just been opened. -/
def Handler.opened : Handler := ⟨MemBlock.new 1024, [], [], false⟩

/-- `HandleInput` when `recv` delivers `chunk`. The results of the buffer's operations are not
looked at. -/
def handleInput (fuel : Nat) (ans : Nat → Bool) (chunk : Bytes) (h : Handler) : Option Handler :=
  let pos := h.recvbuffer.size
  let buf := (h.recvbuffer.resize (pos + RECV_SIZE)).write pos chunk
  let buf := (buf.addSpace chunk.length).getD buf
  (extract fuel buf.data fun i => ans (h.decoded.length + i)).map fun r =>
    let decoded := h.decoded ++ r.decoded.map (slice buf.data)
    let delivered := h.delivered ++ r.delivered.map (slice buf.data)
    if r.ret < 0 then ⟨buf, decoded, delivered, true⟩
    else if 0 < r.ret then
      let buf := (buf.copy 0 r.ret.toNat (buf.size - r.ret.toNat)).getD buf
      ⟨(buf.reduceSpace r.ret.toNat).getD buf, decoded, delivered, h.closed⟩
    else ⟨buf, decoded, delivered, h.closed⟩

/-- `HandleInput` on a connection whose coder is any function of the received bytes. -/
def handleInputWith (coder : Bytes → Option Extracted) (chunk : Bytes) (h : Handler) :
    Option Handler :=
  let pos := h.recvbuffer.size
  let buf := (h.recvbuffer.resize (pos + RECV_SIZE)).write pos chunk
  let buf := (buf.addSpace chunk.length).getD buf
  (coder buf.data).map fun r =>
    let decoded := h.decoded ++ r.decoded.map (slice buf.data)
    let delivered := h.delivered ++ r.delivered.map (slice buf.data)
    if r.ret < 0 then ⟨buf, decoded, delivered, true⟩
    else if 0 < r.ret then
      let buf := (buf.copy 0 r.ret.toNat (buf.size - r.ret.toNat)).getD buf
      ⟨(buf.reduceSpace r.ret.toNat).getD buf, decoded, delivered, h.closed⟩
    else ⟨buf, decoded, delivered, h.closed⟩

theorem handleInput_eq (fuel : Nat) (ans : Nat → Bool) (chunk : Bytes) (h : Handler) :
    handleInput fuel ans chunk h =
      handleInputWith (fun buf => extract fuel buf fun i => ans (h.decoded.length + i)) chunk h :=
  rfl

/-- **`HandleInput` on its buffer**: the coder sees what was there with the new piece behind, and
what it has used is taken off the front. -/
theorem handleInputWith_data {coder : Bytes → Option Extracted} {chunk : Bytes} {h : Handler}
    (hchunk : chunk.length ≤ RECV_SIZE) {x : Extracted}
    (hx : coder (h.recvbuffer.data ++ chunk) = some x)
    (hret : x.ret ≤ (h.recvbuffer.data ++ chunk).length) :
    ∃ h', handleInputWith coder chunk h = some h' ∧
      h'.decoded = h.decoded ++ x.decoded.map (slice (h.recvbuffer.data ++ chunk)) ∧
      h'.delivered = h.delivered ++ x.delivered.map (slice (h.recvbuffer.data ++ chunk)) ∧
      (x.ret < 0 → h'.closed = true) ∧
      (0 ≤ x.ret → h'.closed = h.closed ∧
        h'.recvbuffer.data = (h.recvbuffer.data ++ chunk).drop x.ret.toNat) := by
  obtain ⟨hdata, hsize, hroom⟩ :=
    MemBlock.data_resize (m := h.recvbuffer) (n := h.recvbuffer.size + RECV_SIZE) (by omega)
  have hfits : (h.recvbuffer.resize (h.recvbuffer.size + RECV_SIZE)).size + chunk.length ≤
      (h.recvbuffer.resize (h.recvbuffer.size + RECV_SIZE)).totalSpace := by omega
  obtain ⟨buf, hbuf, hcontents⟩ := MemBlock.data_receive hfits
  rw [hdata] at hcontents
  rw [hsize] at hbuf
  rw [← hcontents] at hx hret ⊢
  unfold handleInputWith
  simp only [hbuf, Option.getD_some, hx, Option.map_some]
  rw [MemBlock.length_data] at hret
  by_cases hneg : x.ret < 0
  · rw [if_pos hneg]
    exact ⟨_, rfl, rfl, rfl, fun _ => rfl, fun hpos => absurd hneg (by omega)⟩
  · rw [if_neg hneg]
    split
    · obtain ⟨m', m'', hcopy, hreduce, hdiscard⟩ :=
        MemBlock.data_discard (m := buf) (n := x.ret.toNat) (by omega)
      refine ⟨_, rfl, rfl, rfl, fun hlt => absurd hlt hneg, fun _ => ⟨rfl, ?_⟩⟩
      simp only [hcopy, hreduce, Option.getD_some]
      exact hdiscard
    · -- nothing was consumed
      refine ⟨_, rfl, rfl, rfl, fun hlt => absurd hlt hneg, fun _ => ⟨rfl, ?_⟩⟩
      have hzero : x.ret.toNat = 0 := by omega
      rw [hzero, List.drop_zero]

/-- The pieces of a stream, one after the other; a closed connection reads nothing. -/
def handleInputs (fuel : Nat) (ans : Nat → Bool) : List Bytes → Handler → Option Handler
  | [], h => some h
  | chunk :: chunks, h =>
    if h.closed then some h else (handleInput fuel ans chunk h).bind (handleInputs fuel ans chunks)

/-! ## Every way of cutting the stream -/

section

variable {ans : Nat → Bool}

theorem asked_shift (k n : Nat) (bs : List Bytes) :
    asked (fun i => ans (k + i)) n bs = asked ans (k + n) bs := by
  induction bs generalizing n with
  | nil => rfl
  | cons p bs ih => rw [asked, asked, ih, Nat.add_assoc]

theorem accepted_shift (k n : Nat) (bs : List Bytes) :
    accepted (fun i => ans (k + i)) n bs = accepted ans (k + n) bs := by
  induction bs generalizing n with
  | nil => rfl
  | cons p bs ih => rw [accepted, accepted, ih, Nat.add_assoc]

/-- While nothing fails, everything is decoded and delivered. -/
theorem append_of_accepted {n : Nat} {bs : List Bytes} (h : accepted ans n bs = bs)
    (bs' : List Bytes) :
    asked ans n (bs ++ bs') = bs ++ asked ans (n + bs.length) bs' ∧
      accepted ans n (bs ++ bs') = bs ++ accepted ans (n + bs.length) bs' := by
  induction bs generalizing n with
  | nil => exact ⟨rfl, rfl⟩
  | cons p bs ih =>
    rw [accepted] at h
    split at h
    · rename_i ha
      obtain ⟨h₁, h₂⟩ := ih (List.cons.inj h).2
      have hn : n + (p :: bs).length = n + 1 + bs.length := by
        rw [List.length_cons]
        omega
      rw [List.cons_append, asked, accepted, if_pos ha, if_pos ha, h₁, h₂, hn]
      exact ⟨rfl, rfl⟩
    · cases h

/-- Behind a failure nothing is decoded. -/
theorem append_of_failed {n : Nat} {bs : List Bytes} (h : accepted ans n bs ≠ bs)
    (bs' : List Bytes) :
    asked ans n (bs ++ bs') = asked ans n bs ∧ accepted ans n (bs ++ bs') = accepted ans n bs ∧
      accepted ans n (bs ++ bs') ≠ bs ++ bs' := by
  induction bs generalizing n with
  | nil => exact absurd rfl h
  | cons p bs ih =>
    rw [List.cons_append, asked, accepted, asked, accepted]
    rw [accepted] at h
    by_cases ha : ans n = true
    · rw [if_pos ha] at h
      obtain ⟨h₁, h₂, h₃⟩ := ih fun heq => h (by rw [heq])
      rw [if_pos ha, if_pos ha, if_pos ha, if_pos ha, h₁, h₂]
      refine ⟨rfl, rfl, fun heq => h₃ ?_⟩
      rw [h₂]
      exact (List.cons.inj heq).2
    · rw [if_neg ha, if_neg ha, if_neg ha, if_neg ha]
      exact ⟨rfl, rfl, by simp⟩

theorem asked_of_accepted {n : Nat} {bs : List Bytes} (h : accepted ans n bs = bs) :
    asked ans n bs = bs := by
  have happ := (append_of_accepted h []).1
  rwa [List.append_nil, asked, List.append_nil] at happ

/-- **One `HandleInput`**: the frames that are complete with the new piece are decoded up to the
first that fails; if none does, the rest stays in the buffer. -/
theorem handleInput_cuts (fuel : Nat) {chunk r : Bytes} {bs : List Bytes} {h : Handler}
    (hopen : h.closed = false) (hchunk : chunk.length ≤ RECV_SIZE)
    (hc : Cuts frames (h.recvbuffer.data ++ chunk) bs r)
    (hstop : r.length ≤ headLen ∨ r.length < ntohl r)
    (hlen : (h.recvbuffer.data ++ chunk).length < 2 ^ 31)
    (hfuel : (h.recvbuffer.data ++ chunk).length < fuel) :
    ∃ h', handleInput fuel ans chunk h = some h' ∧
      h'.decoded = h.decoded ++ asked ans h.decoded.length bs ∧
      h'.delivered = h.delivered ++ accepted ans h.decoded.length bs ∧
      (h'.closed = false ↔ accepted ans h.decoded.length bs = bs) ∧
      (h'.closed = false → h'.recvbuffer.data = r) := by
  have hrest := eq_of_cuts hc
  obtain ⟨x, hx, hdec, hdel, hret⟩ := extractLoop_cuts (fun i => ans (h.decoded.length + i))
    hc hstop hlen fuel 0 List.drop_zero (Nat.zero_add _) hfuel
  rw [asked_shift] at hdec
  rw [accepted_shift] at hdel hret
  have hle : x.ret ≤ (h.recvbuffer.data ++ chunk).length := by
    rw [hret]
    split
    · omega
    · omega
  obtain ⟨h', hrun, hdec', hdel', hneg, hpos⟩ := @handleInputWith_data
    (fun buf => extract fuel buf fun i => ans (h.decoded.length + i)) _ h hchunk _ hx hle
  rw [handleInput_eq, hrun]
  refine ⟨h', rfl, by rw [hdec', hdec]; rfl, by rw [hdel', hdel]; rfl, ?_⟩
  by_cases hall : accepted ans (h.decoded.length + 0) bs = bs
  · rw [if_pos hall] at hret
    obtain ⟨hclosed, hbuf⟩ := hpos (by omega)
    refine ⟨iff_of_true (hclosed.trans hopen) hall, fun _ => ?_⟩
    have hn : x.ret.toNat = (h.recvbuffer.data ++ chunk).length - r.length := by omega
    rw [hbuf, hn, hrest, List.length_append, Nat.add_sub_cancel, List.drop_left]
  · rw [if_neg hall] at hret
    have hclosed := hneg (by omega)
    refine ⟨iff_of_false (by rw [hclosed]; simp) hall, fun hop => ?_⟩
    rw [hclosed] at hop
    cases hop

/-- The connection after the bytes `l`: the frames in `l` were decoded up to the first that fails,
and while none has failed the rest of `l` is in the buffer. -/
def Received (ans : Nat → Bool) (l : Bytes) (h : Handler) : Prop :=
  ∃ bs r, Cuts frames l bs r ∧ h.decoded = asked ans 0 bs ∧ h.delivered = accepted ans 0 bs ∧
    (h.closed = false ↔ accepted ans 0 bs = bs) ∧ (h.closed = false → h.recvbuffer.data = r)

theorem received_opened (ans : Nat → Bool) : Received ans [] Handler.opened :=
  ⟨[], [], .done rfl, rfl, rfl, iff_of_true rfl rfl, fun _ => rfl⟩

/-- One piece. -/
theorem Received.step {fuel : Nat} {ps : List Bytes} {l chunk m : Bytes} {h : Handler}
    (hr : Received ans l h) (hopen : h.closed = false) (hne : ∀ p ∈ ps, p ≠ [])
    (hlen : ∀ p ∈ ps, (frame p).length < 2 ^ 32) (hl : l ++ chunk ++ m = stream ps)
    (hchunk : chunk.length ≤ RECV_SIZE) (hbuf : (h.recvbuffer.data ++ chunk).length < 2 ^ 31)
    (hfuel : (h.recvbuffer.data ++ chunk).length < fuel) :
    ∃ h', handleInput fuel ans chunk h = some h' ∧ Received ans (l ++ chunk) h' := by
  obtain ⟨bs, r, hc, hdec, hdel, hcl, hdata⟩ := hr
  have hall := hcl.mp hopen
  rw [asked_of_accepted hall] at hdec
  rw [hall] at hdel
  obtain ⟨bs', r', hc'⟩ := frames.cuts_exists (r ++ chunk)
  have hwhole := hc.append hc'
  obtain ⟨bs'', -, -, hstop, -⟩ := cuts_take_stream hne hlen hl hwhole
  rw [← hdata hopen] at hc'
  obtain ⟨h', hrun, hdec', hdel', hcl', hdata'⟩ :=
    handleInput_cuts fuel hopen hchunk hc' hstop hbuf hfuel
  rw [hdec] at hdec' hdel' hcl'
  rw [hdel] at hdel'
  have happ := append_of_accepted hall bs'
  rw [Nat.zero_add] at happ
  refine ⟨h', hrun, bs ++ bs', r', hwhole, ?_, ?_, ?_, hdata'⟩
  · rw [hdec', happ.1]
  · rw [hdel', happ.2]
  · rw [hcl', happ.2, List.append_cancel_left_eq]

/-- The buffer has a part of what was received. -/
theorem Received.length_le {l : Bytes} {h : Handler} (hr : Received ans l h)
    (hopen : h.closed = false) : h.recvbuffer.data.length ≤ l.length := by
  obtain ⟨bs, r, hc, -, -, -, hdata⟩ := hr
  rw [hdata hopen, eq_of_cuts hc, List.length_append]
  omega

/-- A closed connection reads nothing more. -/
theorem Received.of_closed {l : Bytes} {h : Handler} (hr : Received ans l h)
    (hclosed : h.closed = true) (m : Bytes) : Received ans (l ++ m) h := by
  obtain ⟨bs, r, hc, hdec, hdel, hcl, -⟩ := hr
  have hfail : accepted ans 0 bs ≠ bs := by
    intro hall
    rw [hcl.mpr hall] at hclosed
    cases hclosed
  obtain ⟨bs', r', hc'⟩ := frames.cuts_exists (r ++ m)
  obtain ⟨h₁, h₂, h₃⟩ := append_of_failed hfail bs'
  refine ⟨bs ++ bs', r', hc.append hc', by rw [hdec, h₁], by rw [hdel, h₂],
    iff_of_false (by rw [hclosed]; simp) h₃, fun h => ?_⟩
  rw [hclosed] at h
  cases h

/-- All pieces. -/
theorem received_handleInputs {fuel : Nat} {ps : List Bytes} (hne : ∀ p ∈ ps, p ≠ [])
    (hlen : (stream ps).length < 2 ^ 31) (hfuel : (stream ps).length < fuel) {chunks : List Bytes}
    (hchunks : ∀ chunk ∈ chunks, chunk.length ≤ RECV_SIZE) {l m : Bytes} {h : Handler}
    (hr : Received ans l h) (hl : l ++ chunks.flatten ++ m = stream ps) :
    ∃ h', handleInputs fuel ans chunks h = some h' ∧ Received ans (l ++ chunks.flatten) h' := by
  induction chunks generalizing l h with
  | nil => exact ⟨h, rfl, by simpa using hr⟩
  | cons chunk chunks ih =>
    rw [handleInputs]
    by_cases hclosed : h.closed = true
    · rw [if_pos hclosed]
      exact ⟨h, rfl, hr.of_closed hclosed _⟩
    · rw [if_neg hclosed]
      have hl' : l ++ chunk ++ (chunks.flatten ++ m) = stream ps := by
        rw [← hl]
        simp
      have hopen : h.closed = false := by simpa using hclosed
      have hbound : (h.recvbuffer.data ++ chunk).length ≤ (stream ps).length := by
        have hle := hr.length_le hopen
        rw [← hl']
        simp only [List.length_append]
        omega
      obtain ⟨h₁, hrun, hr₁⟩ := hr.step hopen hne (length_frame_lt hlen) hl'
        (hchunks chunk List.mem_cons_self) (hbound.trans_lt hlen) (hbound.trans_lt hfuel)
      obtain ⟨h', hrun', hr'⟩ := ih (fun c hc => hchunks c (List.mem_cons_of_mem _ hc)) hr₁
        (by rw [← hl']; simp)
      refine ⟨h', by rw [hrun]; exact hrun', ?_⟩
      rw [List.flatten_cons, ← List.append_assoc]
      exact hr'

/-- As long as every decoding succeeds, all is accepted. -/
theorem accepted_of_ok {n : Nat} {bs : List Bytes} (h : ∀ i < bs.length, ans (n + i) = true) :
    accepted ans n bs = bs := by
  induction bs generalizing n with
  | nil => rfl
  | cons p bs ih =>
    have h₀ : ans n = true := h 0 (Nat.zero_lt_succ _)
    rw [accepted, if_pos h₀, ih fun i hi => ?_]
    have hi' := h (i + 1) (Nat.succ_lt_succ hi)
    rwa [Nat.add_assoc, Nat.add_comm 1 i]

/-- At the first decoding that fails. -/
theorem accepted_of_fail {k : Nat} {ps : List Bytes} (hk : k < ps.length)
    (hok : ∀ i < k, ans i = true) (hfail : ans k = false) :
    asked ans 0 ps = ps.take (k + 1) ∧ accepted ans 0 ps = ps.take k := by
  have hacc : accepted ans 0 (ps.take k) = ps.take k := by
    refine accepted_of_ok fun i hi => ?_
    rw [List.length_take] at hi
    rw [Nat.zero_add]
    exact hok i (by omega)
  have hsplit := append_of_accepted hacc (ps.drop k)
  have hcons : ps.drop k = ps[k] :: ps.drop (k + 1) := List.drop_eq_getElem_cons hk
  have hn : 0 + (ps.take k).length = k := by
    rw [List.length_take]
    omega
  rw [List.take_append_drop, hn, hcons, asked, accepted, hfail] at hsplit
  refine ⟨?_, ?_⟩
  · rw [hsplit.1, List.take_succ_eq_append_getElem hk]
    rfl
  · rw [hsplit.2]
    exact List.append_nil _

/-- After the first pieces of a stream: the frames that are complete in them, and the rest. -/
theorem received_take (ans : Nat → Bool) {fuel : Nat} {ps chunks : List Bytes}
    (hne : ∀ p ∈ ps, p ≠ [])
    (hlen : (stream ps).length < 2 ^ 31) (hfuel : (stream ps).length < fuel)
    (hchunks : ∀ chunk ∈ chunks, chunk.length ≤ RECV_SIZE) {m : Bytes}
    (hcut : chunks.flatten ++ m = stream ps) :
    ∃ h k rest, handleInputs fuel ans chunks Handler.opened = some h ∧
      chunks.flatten = stream (ps.take k) ++ rest ∧
      (k = ps.length ∧ rest = [] ∨ ∃ p, ps[k]? = some p ∧ rest.length < (frame p).length) ∧
      h.decoded = asked ans 0 (ps.take k) ∧ h.delivered = accepted ans 0 (ps.take k) ∧
      (h.closed = false ↔ accepted ans 0 (ps.take k) = ps.take k) ∧
      (h.closed = false → h.recvbuffer.data = rest) := by
  obtain ⟨h, hrun, bs, r, hc, hrest⟩ :=
    received_handleInputs (m := m) hne hlen hfuel hchunks (received_opened ans)
      (by simpa using hcut)
  rw [List.nil_append] at hc
  obtain ⟨bs', rfl, -, -, hnext⟩ := cuts_take_stream hne (length_frame_lt hlen) hcut hc
  have htake : (bs ++ bs').take bs.length = bs := List.take_left
  refine ⟨h, bs.length, r, hrun, ?_, ?_, ?_⟩
  · rw [htake]
    exact eq_of_cuts hc
  · rcases hnext with ⟨rfl, rfl⟩ | ⟨p, bs'', rfl, hlt⟩
    · exact .inl ⟨by simp, rfl⟩
    · exact .inr ⟨p, by simp, hlt⟩
  · rw [htake]
    exact hrest

/-- **Framing.** The frames of non-empty payloads are received in pieces, cut in any way. After
every piece the buffer has the bytes that are not of a complete frame, and the payloads of the
complete frames were decoded, each once and in order; in the end all of them, and the buffer is
empty. If the decoding of a payload fails, those before it are delivered and the connection is
closed. -/
theorem framing {fuel : Nat} {ps chunks : List Bytes} (hne : ∀ p ∈ ps, p ≠ [])
    (hlen : (stream ps).length < 2 ^ 31) (hfuel : (stream ps).length < fuel)
    (hchunks : ∀ chunk ∈ chunks, 1 ≤ chunk.length ∧ chunk.length ≤ RECV_SIZE)
    (hcut : chunks.flatten = stream ps) (ans : Nat → Bool) :
    (∀ n ≤ chunks.length, ∃ h k rest,
      handleInputs fuel ans (chunks.take n) Handler.opened = some h ∧
      (chunks.take n).flatten = stream (ps.take k) ++ rest ∧
      (k = ps.length ∧ rest = [] ∨ ∃ p, ps[k]? = some p ∧ rest.length < (frame p).length) ∧
      ((∀ i < k, ans i = true) → h.closed = false ∧ h.recvbuffer.data = rest ∧
        h.decoded = ps.take k ∧ h.delivered = ps.take k)) ∧
    ∃ h, handleInputs fuel ans chunks Handler.opened = some h ∧
      ((∀ i < ps.length, ans i = true) → h.closed = false ∧ h.recvbuffer.data = [] ∧
        h.decoded = ps ∧ h.delivered = ps) ∧
      ∀ k < ps.length, (∀ i < k, ans i = true) → ans k = false →
        h.closed = true ∧ h.decoded = ps.take (k + 1) ∧ h.delivered = ps.take k := by
  constructor
  · intro n _
    have hparts : (chunks.take n).flatten ++ (chunks.drop n).flatten = stream ps := by
      rw [← List.flatten_append, List.take_append_drop, hcut]
    obtain ⟨h, k, rest, hrun, hflat, hnext, hdec, hdel, hcl, hdata⟩ := received_take ans hne hlen
      hfuel (fun c hc => (hchunks c (List.mem_of_mem_take hc)).2) hparts
    refine ⟨h, k, rest, hrun, hflat, hnext, fun hok => ?_⟩
    have hall : accepted ans 0 (ps.take k) = ps.take k := by
      refine accepted_of_ok fun i hi => ?_
      rw [List.length_take] at hi
      rw [Nat.zero_add]
      exact hok i (by omega)
    have hopen := hcl.mpr hall
    exact ⟨hopen, hdata hopen, by rw [hdec, asked_of_accepted hall], by rw [hdel, hall]⟩
  · obtain ⟨h, hrun, bs, r, hc, hdec, hdel, hcl, hdata⟩ :=
      received_handleInputs (m := []) hne hlen hfuel (fun c hc => (hchunks c hc).2)
        (received_opened ans) (by simpa using hcut)
    rw [List.nil_append, hcut] at hc
    obtain ⟨rfl, rfl⟩ := hc.unique (cuts_stream hne (length_frame_lt hlen))
    refine ⟨h, hrun, fun hok => ?_, fun k hk hok hfail => ?_⟩
    · have hall : accepted ans 0 bs = bs :=
        accepted_of_ok fun i hi => by rw [Nat.zero_add]; exact hok i hi
      have hopen := hcl.mpr hall
      exact ⟨hopen, hdata hopen, by rw [hdec, asked_of_accepted hall], by rw [hdel, hall]⟩
    · obtain ⟨hasked, hacc⟩ := accepted_of_fail hk hok hfail
      refine ⟨?_, by rw [hdec, hasked], by rw [hdel, hacc]⟩
      have hne' : ¬ h.closed = false := by
        rw [hcl, hacc]
        intro heq
        have hl := congrArg List.length heq
        rw [List.length_take] at hl
        omega
      simpa using hne'

theorem framing_two_frames : ∃ h, handleInputs 20 (fun i => i != 1)
    [[0, 0, 0], [5, 120, 0], [0, 0, 6, 121], [122]] Handler.opened = some h ∧
      h.closed = true ∧ h.decoded = [[120], [121, 122]] ∧ h.delivered = [[120]] := by
  have hfuel : (stream [[120], [121, 122]]).length < 20 := by decide
  have hcut : [[0, 0, 0], [5, 120, 0], [0, 0, 6, 121], [122]].flatten =
      stream [[120], [121, 122]] := by decide
  obtain ⟨-, h, hrun, -, hfail⟩ :=
    framing (by decide) (by decide) hfuel (by decide) hcut fun i => i != 1
  obtain ⟨hclosed, hdec, hdel⟩ := hfail 1 (by decide) (by decide) rfl
  exact ⟨h, hrun, hclosed, hdec, hdel⟩

end

end Domq.Netmgr

import Domq.Mq.Connector
import Domq.Mq.Protocol

/-!
# The reply pipeline of `LoadQueues`

`LoadQueues` pipelines two commands for every queue, and for a `SUB2PUB` queue one `LLEN` for every
subscriber. When one of those lengths is not an integer it drains the batch through
`_CHECK_REPLY(.., queue.clients.size()-i-1, ..)`; the macro has a loop variable `i` of its own, and
so the count is taken anew, with another `i`, in every loop test.

`ρ i` is the reply to the `i`-th command of a connection that does not fail (`Wire`).

* `drainSelfCount_eq`: for a batch of `n` the macro reads `drainedSelf n` replies, whatever the
  position of the wrong one; this is `n / 2` as long as `n` fits an `int` (`drainedSelf_eq`).
* `Reached ρ` says which batches the call gets to, by the replies alone, and `BatchFits` that a
  batch has no wrong reply, or that the first wrong one is followed by none or by as many as are
  read.
* `loadQueues_empties_iff`: `LoadQueues` returns with every command answered exactly when every
  batch it gets to fits.
-/

namespace Domq.Mq

open Domq.Lib Domq.Redis Domq.Mq.Connector

/-- `LoadQueues`, called on an idle connection, returns with every command it appended answered. -/
def LoadEmpties (ρ : Nat → Reply) (clock : Nat → Nat) (uuid : Uuid) (m : QueueMgr) : Prop :=
  ∃ ret w, loadQueues.eval (Wire.exec ρ clock uuid) (Wire.idle m) = some (ret, w) ∧
    w.taken = w.appended

/-! ## The drain loop -/

/-- How many replies the macro reads after a wrong reply in a batch of `n`. -/
def drainedSelf (n : Nat) : Nat :=
  if (n - 1) % 2 ^ 32 < 2 ^ 31 then ((n - 1) % 2 ^ 32 + 1) / 2 else 0

/-- The test `i < size-i-1` fails when `i` is half way, and at once past the wrap. -/
theorem toInt_ofInt_sub {size q r i : Nat} (hs : size = 2 ^ 32 * q + r + 1) (hr : r < 2 ^ 31)
    (hi : i ≤ r) : (Int32.ofInt ((size : Int) - i - 1)).toInt = r - i := by
  have hnat : (size : Int) - i - 1 = ((2 ^ 32 * q + (r - i) : Nat) : Int) := by
    rw [hs]
    omega
  have hof : Int32.ofInt ((size : Int) - i - 1) = Int32.ofNat (2 ^ 32 * q + (r - i)) := by
    rw [hnat]
    exact Int32.ofInt_eq_ofNat
  rw [hof, toInt_ofNat_add (by omega)]
  omega

theorem drainSelfCount_low {size q r : Nat} (hs : size = 2 ^ 32 * q + r + 1) (hr : r < 2 ^ 31)
    (fuel i : Nat) (hi : 2 * i ≤ r + 1) (hfuel : r + 1 ≤ 2 * (i + fuel)) :
    drainSelfCount size fuel i = (r + 1) / 2 - i := by
  induction fuel generalizing i with
  | zero =>
    rw [drainSelfCount]
    omega
  | succ fuel ih =>
    rw [drainSelfCount]
    by_cases hir : i ≤ r
    · rw [toInt_ofInt_sub hs hr hir]
      split
      · rw [ih (i + 1) (by omega) (by omega)]
        omega
      · omega
    · have : r = 0 := by omega
      omega

theorem drainSelfCount_high {size : Nat} (h : 2 ^ 31 ≤ (size - 1) % 2 ^ 32) (fuel : Nat) :
    drainSelfCount size fuel 0 = 0 := by
  cases fuel with
  | zero => rfl
  | succ fuel =>
    rw [drainSelfCount, if_neg]
    have hpos : 0 < size := by
      by_contra h0
      have : size = 0 := by omega
      subst this
      omega
    have hnat : (size : Int) - (0 : Nat) - 1 = ((size - 1 : Nat) : Int) := by omega
    have hneg : (Int32.ofInt ((size : Int) - (0 : Nat) - 1)).toInt < 0 := by
      rw [hnat, Int32.ofInt_eq_ofNat]
      show (BitVec.ofNat 32 (size - 1)).toInt < 0
      rw [BitVec.toInt_neg_iff, BitVec.toNat_ofNat]
      omega
    omega

theorem drainSelfCount_eq (n : Nat) (hn : 0 < n) : drainSelfCount n n 0 = drainedSelf n := by
  unfold drainedSelf
  by_cases h : (n - 1) % 2 ^ 32 < 2 ^ 31
  · rw [if_pos h]
    have hs : n = 2 ^ 32 * ((n - 1) / 2 ^ 32) + (n - 1) % 2 ^ 32 + 1 := by
      rw [Nat.div_add_mod]
      omega
    rw [drainSelfCount_low hs h n 0 (by omega) (by omega)]
    omega
  · rw [if_neg h]
    exact drainSelfCount_high (by omega) n

/-- As long as the subscribers can be counted by an `int`, half of them. -/
theorem drainedSelf_eq {n : Nat} (hn : n ≤ 2 ^ 31) : drainedSelf n = n / 2 := by
  unfold drainedSelf
  have h : (n - 1) % 2 ^ 32 = n - 1 := Nat.mod_eq_of_lt (by omega)
  rw [h]
  split
  · omega
  · omega

/-! ## What the replies say -/

/-- The queue that the first two replies of a turn describe, when the turn gets past them. -/
def headOf (tmp : CStr → Option Queue) (element allFieldReply queueCountReply : Reply) :
    Option Queue :=
  if element.type = .string ∧ allFieldReply.type = .array ∧ queueCountReply.type = .integer then
    (getQueueValue ((tmp (CStr.ofBytes element.str)).getD Queue.empty) allFieldReply).map
      fun queue => { queue with msgCount := toSize queueCountReply.toInt }
  else none

/-- The subscribers that the third reply names, when the turn gets past it. -/
def subsOf (subReply : Reply) : Option (List SubQueue) :=
  if subReply.type = .array then (loadClients subReply.elements).toOption else none

/-- The subscribers with the lengths of their lists, from the `s`-th reply on. -/
def countsOf (ρ : Nat → Reply) : Nat → List SubQueue → Option (List SubQueue)
  | _, [] => some []
  | s, sub :: rest =>
    if Wrong (ρ s) then none
    else (countsOf ρ (s + 1) rest).map fun l => { sub with msgCount := toSize (ρ s).toInt } :: l

/-- A turn that succeeds, from the `i`-th reply on: the queue, and the number of the next reply. -/
def turnOf (ρ : Nat → Reply) (tmp : CStr → Option Queue) (element : Reply) (i : Nat) :
    Option (Queue × Nat) :=
  match headOf tmp element (ρ i) (ρ (i + 1)) with
  | none => none
  | some queue =>
    if queue.option.msgType = SUB2PUB then
      if (ρ (i + 2)).type = .nil then some (queue, i + 3)
      else
        match subsOf (ρ (i + 2)) with
        | none => none
        | some clients =>
          (countsOf ρ (i + 3) clients).map fun l =>
            ({ queue with clients := l }, i + 3 + clients.length)
    else some (queue, i + 2)

/-- The loop over `elements` gets to a batch of `n` lengths that starts with the `s`-th reply. -/
inductive Reached (ρ : Nat → Reply) :
    (elements : List Reply) → (tmp : CStr → Option Queue) → (i s n : Nat) → Prop
  | batch {element : Reply} {rest : List Reply} {tmp : CStr → Option Queue} {i : Nat}
      {queue : Queue} {clients : List SubQueue}
      (hhead : headOf tmp element (ρ i) (ρ (i + 1)) = some queue)
      (hty : queue.option.msgType = SUB2PUB) (hclients : subsOf (ρ (i + 2)) = some clients) :
      Reached ρ (element :: rest) tmp i (i + 3) clients.length
  | next {element : Reply} {rest : List Reply} {tmp : CStr → Option Queue} {i j s n : Nat}
      {queue : Queue} (hturn : turnOf ρ tmp element i = some (queue, j))
      (h : Reached ρ rest (Function.update tmp (CStr.ofBytes element.str) (some queue)) j s n) :
      Reached ρ (element :: rest) tmp i s n

theorem reached_cons {ρ : Nat → Reply} {element : Reply} {rest : List Reply}
    {tmp : CStr → Option Queue} {i s n : Nat} :
    Reached ρ (element :: rest) tmp i s n ↔
      (∃ queue clients, headOf tmp element (ρ i) (ρ (i + 1)) = some queue ∧
        queue.option.msgType = SUB2PUB ∧ subsOf (ρ (i + 2)) = some clients ∧ s = i + 3 ∧
        n = clients.length) ∨
      ∃ queue j, turnOf ρ tmp element i = some (queue, j) ∧
        Reached ρ rest (Function.update tmp (CStr.ofBytes element.str) (some queue)) j s n := by
  constructor
  · intro h
    cases h with
    | batch hhead hty hclients => exact .inl ⟨_, _, hhead, hty, hclients, rfl, rfl⟩
    | next hturn h => exact .inr ⟨_, _, hturn, h⟩
  · rintro (⟨queue, clients, hhead, hty, hclients, rfl, rfl⟩ | ⟨queue, j, hturn, h⟩)
    · exact .batch hhead hty hclients
    · exact .next hturn h

/-- A batch of `n` lengths from the `s`-th reply on of which none is wrong, or the first wrong one
is the last, or is followed by as many replies as `drained` says. -/
def BatchFits (ρ : Nat → Reply) (s n drained : Nat) : Prop :=
  ∀ p < n, (∀ i < p, ¬ Wrong (ρ (s + i))) → Wrong (ρ (s + p)) →
    p + 1 = n ∨ p + 1 + drained = n

/-- A batch that begins with an integer. -/
theorem batchFits_cons {ρ : Nat → Reply} {s n drained : Nat} (h₀ : ¬ Wrong (ρ s)) :
    BatchFits ρ s (n + 1) drained ↔ BatchFits ρ (s + 1) n drained := by
  constructor
  · intro h p hp hmin hw
    have := h (p + 1) (by omega) (fun i hi => by
      cases i with
      | zero => exact h₀
      | succ i =>
        have := hmin i (by omega)
        rwa [show s + 1 + i = s + (i + 1) by omega] at this)
      (by rwa [show s + (p + 1) = s + 1 + p by omega])
    omega
  · intro h p hp hmin hw
    cases p with
    | zero => exact absurd hw h₀
    | succ p =>
      have := h p (by omega) (fun i hi => by
        have := hmin (i + 1) (by omega)
        rwa [show s + (i + 1) = s + 1 + i by omega] at this)
        (by rwa [show s + 1 + p = s + (p + 1) by omega])
      omega

/-- A batch of integers fits. -/
theorem batchFits_of_countsOf {ρ : Nat → Reply} {s : Nat} {subs l : List SubQueue}
    (h : countsOf ρ s subs = some l) (drained : Nat) : BatchFits ρ s subs.length drained := by
  induction subs generalizing s l with
  | nil =>
    intro p hp
    exact absurd hp (Nat.not_lt_zero p)
  | cons sub rest ih =>
    rw [countsOf] at h
    split at h
    · cases h
    · rename_i h₀
      obtain ⟨l', hl', -⟩ := Option.map_eq_some_iff.mp h
      exact (batchFits_cons h₀).mpr (ih hl')

/-! ## Evaluation -/

section Eval

variable {ρ : Nat → Reply} {clock : Nat → Nat} {uuid : Uuid}

theorem checkReply_ne_zero {r : Reply} {ty : ReplyType} (hty : ty ≠ .nil) :
    checkReply (some r) ty (-1) true ≠ 0 ↔ r.type ≠ ty := by
  unfold checkReply
  by_cases hn : r.type = .nil
  · simp [hn, hty.symm, NO_EXIST]
  · by_cases h : r.type = ty
    · simp [h, hty]
    · simp [hn, h]

theorem eval_drainSelf (size fuel i : Nat) (w : Wire) (hw : w.taken ≤ w.appended) :
    (drainSelf size fuel i).eval (Wire.exec ρ clock uuid) w =
      if w.taken + drainSelfCount size fuel i ≤ w.appended then
        some ((), { w with taken := w.taken + drainSelfCount size fuel i })
      else none := by
  induction fuel generalizing i w with
  | zero =>
    rw [drainSelfCount, if_pos (by omega)]
    rfl
  | succ fuel ih =>
    rw [drainSelf, drainSelfCount]
    by_cases hi : (i : Int) < (Int32.ofInt (size - i - 1)).toInt
    · rw [if_pos hi, if_pos hi, eval_getReply]
      by_cases ht : w.taken < w.appended
      · rw [if_pos ht]
        have h := ih (i + 1) { w with taken := w.taken + 1 } ht
        simp only at h ⊢
        rw [h, show w.taken + 1 + drainSelfCount size fuel (i + 1) =
          w.taken + (drainSelfCount size fuel (i + 1) + 1) by ring]
      · rw [if_neg ht, if_neg (by omega)]
    · rw [if_neg hi, if_neg hi, if_pos (by omega)]
      rfl

/-- The batch, when every length is an integer. -/
theorem eval_loadCounts_ok (size : Nat) {subs l : List SubQueue} {w : Wire}
    (hw : w.appended = w.taken + subs.length) (hl : countsOf ρ w.taken subs = some l) :
    (loadCounts size subs).eval (Wire.exec ρ clock uuid) w =
      some (.ok l, { w with taken := w.appended }) := by
  induction subs generalizing w l with
  | nil =>
    cases hl
    obtain ⟨m, appended, taken, ticks⟩ := w
    obtain rfl : appended = taken := hw
    rfl
  | cons sub rest ih =>
    rw [List.length_cons] at hw
    rw [countsOf] at hl
    split at hl
    · cases hl
    · rename_i hr
      obtain ⟨l', hl', rfl⟩ := Option.map_eq_some_iff.mp hl
      rw [loadCounts, eval_getReply, if_pos (by omega)]
      simp only [if_neg (fun h => hr ((checkReply_integer _).mp h))]
      rw [Prog.eval_bind, ih (w := { w with taken := w.taken + 1 }) (by simp only; omega) hl']
      rfl

variable (ρ clock uuid)

/-- The batch, when some length is wrong: the call fails, and has then read every reply exactly when
the batch fits. -/
theorem eval_loadCounts_wrong {size : Nat} (hsize : 0 < size) {subs : List SubQueue} {w : Wire}
    (hw : w.appended = w.taken + subs.length) (hl : countsOf ρ w.taken subs = none) :
    (∀ l w', (loadCounts size subs).eval (Wire.exec ρ clock uuid) w ≠ some (.ok l, w')) ∧
    ((∃ ret w', (loadCounts size subs).eval (Wire.exec ρ clock uuid) w = some (.error ret, w') ∧
      w'.taken = w'.appended) ↔ BatchFits ρ w.taken subs.length (drainedSelf size)) := by
  induction subs generalizing w with
  | nil => cases hl
  | cons sub rest ih =>
    rw [List.length_cons] at hw ⊢
    rw [countsOf] at hl
    rw [loadCounts, eval_getReply, if_pos (by omega)]
    by_cases hr : Wrong (ρ w.taken)
    · simp only [if_pos ((checkReply_integer _).mpr hr)]
      -- the first reply is the wrong one
      have hfits : BatchFits ρ w.taken (rest.length + 1) (drainedSelf size) ↔
          rest.length = 0 ∨ drainedSelf size = rest.length := by
        constructor
        · intro h
          have := h 0 (by omega) (fun i hi => absurd hi (by omega)) hr
          omega
        · intro h p hp hmin _
          have hp0 : p = 0 := by
            by_contra hne
            exact hmin 0 (by omega) hr
          omega
      rw [hfits]
      by_cases hrest : 0 < rest.length
      · simp only [if_pos hrest]
        rw [Prog.eval_bind, eval_drainSelf _ _ _ _ (by simp only; omega),
          drainSelfCount_eq size hsize]
        simp only
        split
        · refine ⟨fun l w' h => (by cases h), ?_⟩
          constructor
          · rintro ⟨ret, w', h, ht⟩
            cases h
            simp only at ht
            omega
          · intro h
            exact ⟨_, _, rfl, by simp only; omega⟩
        · refine ⟨fun l w' h => (by cases h), ?_⟩
          constructor
          · rintro ⟨ret, w', h, -⟩
            cases h
          · omega
      · simp only [if_neg hrest]
        refine ⟨fun l w' h => (by cases h), ?_⟩
        exact ⟨fun _ => .inl (by omega), fun _ => ⟨_, _, rfl, by simp only; omega⟩⟩
    · simp only [if_neg (fun h => hr ((checkReply_integer _).mp h))]
      rw [if_neg hr, Option.map_eq_none_iff] at hl
      obtain ⟨hok, hiff⟩ := ih (w := { w with taken := w.taken + 1 }) (by simp only; omega) hl
      rw [Prog.eval_bind, batchFits_cons hr, ← hiff]
      cases he : (loadCounts size rest).eval (Wire.exec ρ clock uuid)
        { w with taken := w.taken + 1 } with
      | none => exact ⟨fun l w' h => (by cases h), by simp⟩
      | some xw =>
        obtain ⟨x, w₁⟩ := xw
        cases x with
        | ok l => exact absurd he (hok l w₁)
        | error ret =>
          refine ⟨fun l w' h => (by cases h), ?_⟩
          exact Iff.rfl

/-- What is left of a turn after its first two replies, on an idle connection. -/
theorem loadSubscribers_cases (queue : Queue) (m : QueueMgr) (i ticks : Nat) :
    ((ρ i).type = .nil ∧
      (loadSubscribers queue).eval (Wire.exec ρ clock uuid) ⟨m, i, i, ticks⟩ =
        some (.ok queue, ⟨m, i + 1, i + 1, ticks⟩)) ∨
    ((ρ i).type ≠ .nil ∧ subsOf (ρ i) = none ∧ ∃ ret,
      (loadSubscribers queue).eval (Wire.exec ρ clock uuid) ⟨m, i, i, ticks⟩ =
        some (.error ret, ⟨m, i + 1, i + 1, ticks⟩)) ∨
    ((ρ i).type ≠ .nil ∧ ∃ clients, subsOf (ρ i) = some clients ∧
      (loadSubscribers queue).eval (Wire.exec ρ clock uuid) ⟨m, i, i, ticks⟩ =
        ((loadCounts clients.length clients).eval (Wire.exec ρ clock uuid)
          ⟨m, i + 1 + clients.length, i + 1, ticks⟩).map fun xw =>
            (xw.1.map fun l => { queue with clients := l }, xw.2)) := by
  have hget : (loadSubscribers queue).eval (Wire.exec ρ clock uuid) ⟨m, i, i, ticks⟩ = _ :=
    eval_getReply _ ⟨m, i + 1, i, ticks⟩
  rw [hget, if_pos (Nat.lt_succ_self i)]
  cases hr : ρ i with
  | nil => exact .inl ⟨rfl, rfl⟩
  | array elements =>
    have hel : subsOf (.array elements) = (loadClients elements).toOption := rfl
    refine .inr ?_
    cases hl : loadClients elements with
    | error ret =>
      refine .inl ⟨by simp [Reply.type], by rw [hel, hl]; rfl, ret, ?_⟩
      simp [checkReply, Reply.type, Reply.elements, hl]
    | ok clients =>
      refine .inr ⟨by simp [Reply.type], clients, by rw [hel, hl]; rfl, ?_⟩
      simp only [checkReply, Reply.type, Reply.elements, hl, reduceCtorEq, and_false, if_false,
        ne_eq, not_true_eq_false]
      rw [eval_appendAll, List.length_map, Prog.eval_bind]
      simp only
      cases (loadCounts clients.length clients).eval (Wire.exec ρ clock uuid)
        ⟨m, i + 1 + clients.length, i + 1, ticks⟩ with
      | none => rfl
      | some xw =>
        obtain ⟨x, w⟩ := xw
        cases x with
        | error ret => rfl
        | ok l => rfl
  | _ => exact .inr (.inl ⟨by simp [Reply.type], rfl, _, rfl⟩)

/-- A turn up to its second reply, on an idle connection. -/
theorem loadQueue_cases (tmp : CStr → Option Queue) (element : Reply) (m : QueueMgr)
    (i ticks : Nat) :
    (headOf tmp element (ρ i) (ρ (i + 1)) = none ∧ ∃ ret j,
      (loadQueue tmp element).eval (Wire.exec ρ clock uuid) ⟨m, i, i, ticks⟩ =
        some (.error ret, ⟨m, j, j, ticks⟩)) ∨
    ∃ queue, headOf tmp element (ρ i) (ρ (i + 1)) = some queue ∧
      (loadQueue tmp element).eval (Wire.exec ρ clock uuid) ⟨m, i, i, ticks⟩ =
        if queue.option.msgType = SUB2PUB then
          (loadSubscribers queue).eval (Wire.exec ρ clock uuid) ⟨m, i + 2, i + 2, ticks⟩
        else some (.ok queue, ⟨m, i + 2, i + 2, ticks⟩) := by
  have hne : ReplyType.string ≠ .nil ∧ ReplyType.array ≠ .nil ∧ ReplyType.integer ≠ .nil := by
    decide
  unfold loadQueue
  by_cases hs : element.type = .string
  · simp only [if_neg (fun h => (checkReply_ne_zero hne.1).mp h hs)]
    show (_ ∧ ∃ ret j, (getReply >>= _).eval _ (⟨m, i + 1 + 1, i, ticks⟩ : Wire) = _) ∨
      ∃ queue, _ ∧ (getReply >>= _).eval _ (⟨m, i + 1 + 1, i, ticks⟩ : Wire) = _
    rw [eval_getReply, if_pos (by simp only; omega)]
    by_cases ha : (ρ i).type = .array
    · simp only [if_neg (fun h => (checkReply_ne_zero hne.2.1).mp h ha)]
      rw [eval_getReply, if_pos (by simp only; omega)]
      by_cases hn : (ρ (i + 1)).type = .integer
      · simp only [if_neg (fun h => (checkReply_ne_zero hne.2.2).mp h hn)]
        have hhead : headOf tmp element (ρ i) (ρ (i + 1)) =
            (getQueueValue ((tmp (CStr.ofBytes element.str)).getD Queue.empty) (ρ i)).map
              fun queue => { queue with msgCount := toSize (ρ (i + 1)).toInt } := by
          rw [headOf, if_pos ⟨hs, ha, hn⟩]
        rw [hhead]
        cases getQueueValue ((tmp (CStr.ofBytes element.str)).getD Queue.empty) (ρ i) with
        | none => exact .inl ⟨rfl, -1, i + 2, rfl⟩
        | some queue =>
          refine .inr ⟨_, rfl, ?_⟩
          simp only
          split
          · rfl
          · rfl
      · refine .inl ⟨by rw [headOf, if_neg (fun h => hn h.2.2)], ?_⟩
        simp only [if_pos ((checkReply_ne_zero hne.2.2).mpr hn)]
        exact ⟨_, i + 2, rfl⟩
    · -- the second reply is drained
      refine .inl ⟨by rw [headOf, if_neg (fun h => ha h.2.1)], ?_⟩
      simp only [if_pos ((checkReply_ne_zero hne.2.1).mpr ha)]
      refine ⟨checkReply (some (ρ i)) .array (-1) true, i + 2, ?_⟩
      rw [drain_one, eval_getReply, if_pos (by simp only; omega)]
      rfl
  · refine .inl ⟨by rw [headOf, if_neg (fun h => hs h.1)], ?_⟩
    simp only [if_pos ((checkReply_ne_zero hne.1).mpr hs)]
    exact ⟨_, i, rfl⟩

/-- A turn that fails in its batch gets to this batch and to no other. -/
theorem reached_iff_of_wrong {tmp : CStr → Option Queue} {element : Reply} {rest : List Reply}
    {i : Nat} {queue : Queue} {clients : List SubQueue}
    (hhead : headOf tmp element (ρ i) (ρ (i + 1)) = some queue)
    (hty : queue.option.msgType = SUB2PUB) (hsubs : subsOf (ρ (i + 2)) = some clients)
    (hturn : turnOf ρ tmp element i = none) (s n : Nat) :
    Reached ρ (element :: rest) tmp i s n ↔ s = i + 3 ∧ n = clients.length := by
  constructor
  · intro hr
    rcases reached_cons.mp hr with ⟨queue', clients', -, -, h, rfl, rfl⟩ | ⟨queue', j, h, -⟩
    · obtain rfl := Option.some.inj (hsubs.symm.trans h)
      exact ⟨rfl, rfl⟩
    · rw [hturn] at h
      cases h
  · rintro ⟨rfl, rfl⟩
    exact .batch hhead hty hsubs

/-- The batch of a turn, when some length is wrong. -/
theorem eval_batch_wrong (f : List SubQueue → Queue) {clients : List SubQueue} (m : QueueMgr)
    (i ticks : Nat) (hl : countsOf ρ i clients = none) {run : Option (Except Int Queue × Wire)}
    (hrun : run = ((loadCounts clients.length clients).eval (Wire.exec ρ clock uuid)
      ⟨m, i + clients.length, i, ticks⟩).map fun xw => (xw.1.map f, xw.2)) :
    (∀ queue w, run ≠ some (.ok queue, w)) ∧
    ((∃ ret w, run = some (.error ret, w) ∧ w.taken = w.appended) ↔
      BatchFits ρ i clients.length (drainedSelf clients.length)) := by
  have hpos : 0 < clients.length := by
    cases clients with
    | nil => cases hl
    | cons c cs => exact Nat.succ_pos _
  obtain ⟨hok, hiff⟩ := eval_loadCounts_wrong ρ clock uuid hpos
    (w := ⟨m, i + clients.length, i, ticks⟩) rfl hl
  rw [← hiff, hrun]
  refine ⟨fun queue w h => ?_, ?_⟩
  · obtain ⟨⟨x, w'⟩, hx, hxw⟩ := Option.map_eq_some_iff.mp h
    cases x with
    | error ret => cases hxw
    | ok l => exact hok l w' hx
  · constructor
    · rintro ⟨ret, w, h, hw⟩
      obtain ⟨⟨x, w'⟩, hx, hxw⟩ := Option.map_eq_some_iff.mp h
      cases x with
      | ok l => cases hxw
      | error ret' =>
        cases hxw
        exact ⟨_, _, hx, hw⟩
    · rintro ⟨ret, w, h, hw⟩
      refine ⟨ret, w, ?_, hw⟩
      rw [h]
      rfl

/-- One turn on an idle connection. It fails before it gets to a batch; or it succeeds, and its
batch, if it has one, fits; or it fails in its batch, and has then read every reply exactly when the
batch fits. -/
theorem loadQueue_turn (tmp : CStr → Option Queue) (element : Reply) (rest : List Reply)
    (m : QueueMgr) (i ticks : Nat) :
    ((∀ s n, ¬ Reached ρ (element :: rest) tmp i s n) ∧ ∃ ret j,
      (loadQueue tmp element).eval (Wire.exec ρ clock uuid) ⟨m, i, i, ticks⟩ =
        some (.error ret, ⟨m, j, j, ticks⟩)) ∨
    (∃ queue j, turnOf ρ tmp element i = some (queue, j) ∧
      (loadQueue tmp element).eval (Wire.exec ρ clock uuid) ⟨m, i, i, ticks⟩ =
        some (.ok queue, ⟨m, j, j, ticks⟩) ∧
      ∀ s n, Reached ρ (element :: rest) tmp i s n → BatchFits ρ s n (drainedSelf n) ∨
        Reached ρ rest (Function.update tmp (CStr.ofBytes element.str) (some queue)) j s n) ∨
    ∃ s n, (∀ s' n', Reached ρ (element :: rest) tmp i s' n' ↔ s' = s ∧ n' = n) ∧
      (∀ queue w, (loadQueue tmp element).eval (Wire.exec ρ clock uuid) ⟨m, i, i, ticks⟩ ≠
        some (.ok queue, w)) ∧
      ((∃ ret w, (loadQueue tmp element).eval (Wire.exec ρ clock uuid) ⟨m, i, i, ticks⟩ =
        some (.error ret, w) ∧ w.taken = w.appended) ↔ BatchFits ρ s n (drainedSelf n)) := by
  rcases loadQueue_cases ρ clock uuid tmp element m i ticks with
    ⟨hhead, ret, j, he⟩ | ⟨queue, hhead, he⟩
  · refine .inl ⟨fun s n hr => ?_, ret, j, he⟩
    rcases reached_cons.mp hr with ⟨queue, clients, h, -⟩ | ⟨queue, j, h, -⟩
    · rw [hhead] at h
      cases h
    · rw [turnOf, hhead] at h
      cases h
  by_cases hty : queue.option.msgType = SUB2PUB
  · rw [if_pos hty] at he
    rcases loadSubscribers_cases ρ clock uuid queue m (i + 2) ticks with
      ⟨hnil, hs⟩ | ⟨hnil, hsubs, ret, hs⟩ | ⟨hnil, clients, hsubs, hs⟩
    · -- the queue has no subscribers
      have hturn : turnOf ρ tmp element i = some (queue, i + 3) := by
        simp only [turnOf, hhead, if_pos hty, if_pos hnil]
      refine .inr (.inl ⟨queue, i + 3, hturn, he.trans hs, fun s n hr => .inr ?_⟩)
      rcases reached_cons.mp hr with ⟨queue', clients, -, -, hsubs, -⟩ | ⟨queue', j, h, hr⟩
      · rw [subsOf, if_neg (by rw [hnil]; decide)] at hsubs
        cases hsubs
      · cases hturn.symm.trans h
        exact hr
    · have hturn : turnOf ρ tmp element i = none := by
        simp only [turnOf, hhead, if_pos hty, if_neg hnil, hsubs]
      refine .inl ⟨fun s n hr => ?_, ret, i + 3, he.trans hs⟩
      rcases reached_cons.mp hr with ⟨queue', clients, -, -, h, -⟩ | ⟨queue', j, h, -⟩
      · rw [hsubs] at h
        cases h
      · rw [hturn] at h
        cases h
    · rw [hs] at he
      have hturn : turnOf ρ tmp element i = (countsOf ρ (i + 3) clients).map fun l =>
          ({ queue with clients := l }, i + 3 + clients.length) := by
        simp only [turnOf, hhead, if_pos hty, if_neg hnil, hsubs]
      cases hl : countsOf ρ (i + 3) clients with
      | some l =>
        rw [hl] at hturn
        rw [eval_loadCounts_ok clients.length (w := ⟨m, i + 3 + clients.length, i + 3, ticks⟩) rfl
          hl] at he
        refine .inr (.inl ⟨_, _, hturn, he, fun s n hr => ?_⟩)
        rcases reached_cons.mp hr with ⟨queue', clients', -, -, h, rfl, rfl⟩ | ⟨queue', j, h, hr⟩
        · cases hsubs.symm.trans h
          exact .inl (batchFits_of_countsOf hl _)
        · cases hturn.symm.trans h
          exact .inr hr
      | none =>
        rw [hl] at hturn
        obtain ⟨hok, hiff⟩ := eval_batch_wrong ρ clock uuid _ m (i + 3) ticks hl he
        exact .inr (.inr ⟨i + 3, clients.length, reached_iff_of_wrong ρ hhead hty hsubs hturn,
          hok, hiff⟩)
  · rw [if_neg hty] at he
    have hturn : turnOf ρ tmp element i = some (queue, i + 2) := by
      simp only [turnOf, hhead, if_neg hty]
    refine .inr (.inl ⟨queue, i + 2, hturn, he, fun s n hr => .inr ?_⟩)
    rcases reached_cons.mp hr with ⟨queue', clients, h, hty', -⟩ | ⟨queue', j, h, hr⟩
    · cases hhead.symm.trans h
      exact absurd hty' hty
    · cases hturn.symm.trans h
      exact hr

/-- **The loop.** -/
theorem loadLoop_empties (elements : List Reply) (tmp : CStr → Option Queue) (m : QueueMgr)
    (i ticks : Nat) :
    (∃ ret w, (loadLoop elements tmp).eval (Wire.exec ρ clock uuid) ⟨m, i, i, ticks⟩ =
      some (ret, w) ∧ w.taken = w.appended) ↔
    ∀ s n, Reached ρ elements tmp i s n → BatchFits ρ s n (drainedSelf n) := by
  induction elements generalizing tmp i with
  | nil => exact ⟨fun _ s n h => (by cases h), fun _ => ⟨_, _, rfl, rfl⟩⟩
  | cons element rest ih =>
    rw [loadLoop, Prog.eval_bind]
    rcases loadQueue_turn ρ clock uuid tmp element rest m i ticks with
      ⟨hno, ret, j, he⟩ | ⟨queue, j, hturn, he, hfit⟩ | ⟨s, n, hreach, hok, hiff⟩
    · rw [he]
      exact ⟨fun _ s n h => absurd h (hno s n), fun _ => ⟨_, _, rfl, rfl⟩⟩
    · rw [he]
      refine (ih _ j).trans ⟨fun h s n hr => ?_, fun h s n hr => h s n (.next hturn hr)⟩
      rcases hfit s n hr with hf | hr
      · exact hf
      · exact h s n hr
    · have hback : (∀ s' n', Reached ρ (element :: rest) tmp i s' n' →
          BatchFits ρ s' n' (drainedSelf n')) ↔ BatchFits ρ s n (drainedSelf n) := by
        constructor
        · exact fun h => h s n ((hreach s n).mpr ⟨rfl, rfl⟩)
        · rintro h s' n' hr
          obtain ⟨rfl, rfl⟩ := (hreach s' n').mp hr
          exact h
      rw [hback, ← hiff]
      cases he : (loadQueue tmp element).eval (Wire.exec ρ clock uuid) ⟨m, i, i, ticks⟩ with
      | none => simp
      | some xw =>
        obtain ⟨x, w⟩ := xw
        cases x with
        | ok queue => exact absurd he (hok queue w)
        | error ret =>
          constructor
          · rintro ⟨ret', w', h, hw⟩
            cases h
            exact ⟨ret, w, rfl, hw⟩
          · rintro ⟨ret', w', h, hw⟩
            cases h
            exact ⟨ret, w, rfl, hw⟩

end Eval

/-- **`LoadQueues` empties its pipeline** exactly when in every batch of subscriber lengths it gets
to no reply is wrong, or the first wrong one is the last, or it is followed by as many replies as
the macro reads. -/
theorem loadQueues_empties_iff (ρ : Nat → Reply) (clock : Nat → Nat) (uuid : Uuid) (m : QueueMgr) :
    LoadEmpties ρ clock uuid m ↔
      ∀ s n, Reached ρ (ρ 0).elements (fun _ => none) 1 s n → BatchFits ρ s n (drainedSelf n) := by
  have hcmd : loadQueues.eval (Wire.exec ρ clock uuid) (Wire.idle m) =
      if checkReply (some (ρ 0)) .array (-1) false ≠ 0 then
        some (checkReply (some (ρ 0)) .array (-1) false, ⟨m, 1, 1, 0⟩)
      else if (ρ 0).type = .nil then some (0, ⟨m, 1, 1, 0⟩)
      else (loadLoop (ρ 0).elements fun _ => none).eval (Wire.exec ρ clock uuid) ⟨m, 1, 1, 0⟩ := by
    show Prog.eval _ (if checkReply (some (ρ 0)) .array (-1) false ≠ 0 then _
      else if (ρ 0).type = .nil then _ else _) (⟨m, 1, 1, 0⟩ : Wire) = _
    split
    · rfl
    · split
      · rfl
      · rfl
  unfold LoadEmpties
  rw [hcmd]
  cases hr : ρ 0 with
  | array elements => exact loadLoop_empties ρ clock uuid elements (fun _ => none) m 1 0
  | _ => exact ⟨fun _ s n h => (by cases h), fun _ => ⟨_, _, rfl, rfl⟩⟩

/-- One publish/subscribe queue with three subscribers, the first of whose lists is refused. -/
def threeLengths : Nat → Reply
  | 0 => .array [.string (ascii "q")]
  | 1 => pairs (metaFields
      ⟨⟨ascii "q", noNul_q⟩, SUB2PUB, 0, 0, .publisher, 1, ⟨ascii "c", noNul_c⟩⟩ 100)
  | 3 => pairs [(ascii "a", ascii "1"), (ascii "b", ascii "1"), (ascii "c", ascii "1")]
  | 4 => .error (ascii "WRONGTYPE")
  | _ => .integer 0

/-- Seven commands go out and six replies are read. -/
theorem loadQueues_leaves_reply :
    ¬ LoadEmpties threeLengths (fun _ => 100) (Uuid.ofByte 0) oneSession := by
  rintro ⟨ret, w, he, hw⟩
  have hev : (loadQueues.eval (Wire.exec threeLengths (fun _ => 100) (Uuid.ofByte 0))
      (Wire.idle oneSession)).map (fun rw => (rw.1, rw.2.appended, rw.2.taken)) =
        some (-1, 7, 6) := by rfl
  rw [he] at hev
  simp only [Option.map_some, Option.some.injEq, Prod.mk.injEq] at hev
  omega

end Domq.Mq

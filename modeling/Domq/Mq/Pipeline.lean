import Domq.Mq.Mgr
import Mathlib.Tactic.Ring

/-!
# The reply pipeline of `PushMsg`

`PushMsg` appends two commands for every subscriber (or two in all) and then reads the replies in a
loop. After a wrong reply it drains what is left through `_CHECK_REPLY(.., --totalReply, ..)`, whose
count argument is evaluated again in every loop test.

A `Wire` is one connection that does not fail: the replies come in the order of the commands, and a
reader who has taken them all waits for ever (`none`). `ρ i` is the reply to the `i`-th command, and
may be anything.

* `drainCount_eq`: after a wrong reply with `2 n` commands in all, the macro reads `drained n`
  replies, which is `n - 1` as long as the counts fit an `int` (`drained_eq`).
* `pushMsg_empties_iff`: `PushMsg` returns with every appended command answered exactly when no
  reply is wrong or exactly `drained n` replies follow the first wrong one.
-/

namespace Domq.Mq

open Domq.Lib Domq.Redis

/-! ## One connection -/

/-- The state of a thread with its connection: commands appended and replies taken. -/
structure Wire where
  mgr : QueueMgr
  appended : Nat
  taken : Nat
  /-- how often the clock was read -/
  ticks : Nat

namespace Wire

/-- The reply the next `GetReply` delivers; it waits for ever when there is none to come. -/
def take (ρ : Nat → Reply) (w : Wire) : Option (Option Reply × Wire) :=
  if w.taken < w.appended then some (some (ρ w.taken), { w with taken := w.taken + 1 }) else none

/-- An action on a connection that answers with `ρ`, the `i`-th clock reading being `clock i`. -/
def exec (ρ : Nat → Reply) (clock : Nat → Nat) (uuid : Uuid) (w : Wire) :
    (a : Act) → Option (a.Res × Wire)
  | .append _ => some ((), { w with appended := w.appended + 1 })
  | .getReply => w.take ρ
  | .command _ => { w with appended := w.appended + 1 }.take ρ
  | .time => some (clock w.ticks, { w with ticks := w.ticks + 1 })
  | .locked s =>
    (s.run (clock w.ticks) uuid w.mgr).map fun rm =>
      (rm.1, { w with mgr := rm.2, ticks := w.ticks + 1 })

/-- A connection without unread replies. -/
def idle (m : QueueMgr) : Wire := ⟨m, 0, 0, 0⟩

end Wire

/-- `PushMsg`, called on an idle connection, returns with every command it appended answered. -/
def EmptiesPipeline (ρ : Nat → Reply) (clock : Nat → Nat) (uuid : Uuid) (m : QueueMgr)
    (msgQueueCode data : Bytes) : Prop :=
  ∃ ret w, (pushMsg msgQueueCode data).eval (Wire.exec ρ clock uuid) (Wire.idle m) = some (ret, w) ∧
    w.taken = w.appended

/-- The turns of the reply loop: one for each subscriber of a `SUB2PUB` queue, one otherwise. -/
def turns (msgType : Int32) (listBuf : List CStr) : Nat :=
  if msgType = SUB2PUB then listBuf.length else 1

/-- A reply `PushMsg` takes for an error. -/
def Wrong (r : Reply) : Prop := r.type ≠ .integer

instance (r : Reply) : Decidable (Wrong r) := inferInstanceAs (Decidable (_ ≠ _))

/-- How many replies the macro reads after a wrong reply to one of `2 n` commands. -/
def drained (n : Nat) : Nat :=
  if (2 * n - 2) % 2 ^ 32 < 2 ^ 31 then (2 * n - 2) % 2 ^ 32 / 2 else 0

/-! ## The drain loop -/

/-- The turns `drainDec` makes when the replies do not run out. -/
def drainCount : Nat → Nat → Nat
  | 0, _ => 0
  | total + 1, i =>
    if (i : Int) < (Int32.ofNat total).toInt then drainCount total (i + 1) + 1 else 0

theorem toInt_ofNat_add {q r : Nat} (hr : r < 2 ^ 31) :
    (Int32.ofNat (2 ^ 32 * q + r)).toInt = r := by
  have h : Int32.ofNat (2 ^ 32 * q + r) = Int32.ofNat r := by
    apply Int32.toBitVec_inj.mp
    show BitVec.ofNat 32 _ = BitVec.ofNat 32 r
    apply BitVec.eq_of_toNat_eq
    simp only [BitVec.toNat_ofNat]
    omega
  rw [h, Int32.toInt_ofNat_of_lt hr]

/-- Below the wrap, the test `i < total` fails when `i` has met `total`: half way. -/
theorem drainCount_low (q r i : Nat) (hr : r < 2 ^ 31) :
    drainCount (2 ^ 32 * q + r + 1) i = (r - i + 1) / 2 := by
  induction r generalizing i with
  | zero =>
    rw [drainCount, show 2 ^ 32 * q = 2 ^ 32 * q + 0 from rfl, toInt_ofNat_add hr,
      if_neg (by omega)]
    omega
  | succ r ih =>
    rw [drainCount, toInt_ofNat_add hr]
    split
    · have := ih (i + 1) (by omega)
      rw [show 2 ^ 32 * q + (r + 1) = 2 ^ 32 * q + r + 1 by ring, this]
      omega
    · omega

/-- Past the wrap, `int(--totalReply)` is negative and nothing is read. -/
theorem drainCount_high (t : Nat) (ht : 2 ^ 31 ≤ t % 2 ^ 32) : drainCount (t + 1) 0 = 0 := by
  rw [drainCount, if_neg]
  have hneg : (Int32.ofNat t).toInt < 0 := by
    show (BitVec.ofNat 32 t).toInt < 0
    rw [BitVec.toInt_neg_iff, BitVec.toNat_ofNat]
    omega
  omega

theorem drainCount_eq (n : Nat) (hn : 0 < n) : drainCount (2 * n - 1) 0 = drained n := by
  obtain ⟨t, ht⟩ : ∃ t, 2 * n - 1 = t + 1 := ⟨2 * n - 2, by omega⟩
  have ht' : t = 2 * n - 2 := by omega
  unfold drained
  rw [ht, ← ht']
  by_cases h : t % 2 ^ 32 < 2 ^ 31
  · rw [if_pos h]
    have := drainCount_low (t / 2 ^ 32) (t % 2 ^ 32) 0 h
    rw [Nat.div_add_mod] at this
    rw [this]
    omega
  · rw [if_neg h]
    exact drainCount_high t (by omega)

/-- As long as the counts fit an `int`, half of the commands less one. -/
theorem drained_eq {n : Nat} (hn : n ≤ 2 ^ 30) : drained n = n - 1 := by
  unfold drained
  have h : (2 * n - 2) % 2 ^ 32 = 2 * n - 2 := Nat.mod_eq_of_lt (by omega)
  rw [h]
  split
  · omega
  · omega

/-! ## Evaluation -/

variable {ρ : Nat → Reply} {clock : Nat → Nat} {uuid : Uuid}

theorem checkReply_integer (r : Reply) :
    checkReply (some r) .integer (-1) true ≠ 0 ↔ Wrong r := by
  unfold Wrong
  cases r <;> simp [checkReply, Reply.type, NO_EXIST]

theorem eval_getReply {α : Type} (k : Option Reply → QProg α) (w : Wire) :
    (getReply >>= k).eval (Wire.exec ρ clock uuid) w =
      if w.taken < w.appended then
        (k (some (ρ w.taken))).eval (Wire.exec ρ clock uuid) { w with taken := w.taken + 1 }
      else none := by
  rw [getReply_bind, Prog.eval_act]
  show (Wire.take ρ w).bind _ = _
  unfold Wire.take
  split
  · rfl
  · rfl

theorem eval_appendAll {α : Type} (cs : List Cmd) (k : Unit → QProg α) (w : Wire) :
    (appendAll cs >>= k).eval (Wire.exec ρ clock uuid) w =
      (k ()).eval (Wire.exec ρ clock uuid) { w with appended := w.appended + cs.length } := by
  induction cs generalizing w with
  | nil => rfl
  | cons c cs ih =>
    have := ih { w with appended := w.appended + 1 }
    simp only [List.length_cons]
    rw [show w.appended + (cs.length + 1) = w.appended + 1 + cs.length by ring]
    exact this

theorem eval_drainDec (total i : Nat) (ret : Int) (w : Wire) (hw : w.taken ≤ w.appended) :
    (drainDec total i >>= fun _ => (return ret : QProg Int)).eval (Wire.exec ρ clock uuid) w =
      if w.taken + drainCount total i ≤ w.appended then
        some (ret, { w with taken := w.taken + drainCount total i })
      else none := by
  induction total generalizing i w with
  | zero =>
    rw [drainCount, if_pos (by omega)]
    rfl
  | succ total ih =>
    rw [drainDec, drainCount]
    by_cases hi : (i : Int) < (Int32.ofNat total).toInt
    · rw [if_pos hi, if_pos hi, getReply_bind, Prog.act_bind, ← getReply_bind, eval_getReply]
      by_cases ht : w.taken < w.appended
      · rw [if_pos ht]
        have h := ih (i + 1) { w with taken := w.taken + 1 } ht
        simp only at h ⊢
        rw [h, show w.taken + 1 + drainCount total (i + 1) =
          w.taken + (drainCount total (i + 1) + 1) by ring]
      · rw [if_neg ht, if_neg (by omega)]
    · rw [if_neg hi, if_neg hi, if_pos (by omega)]
      rfl

theorem eval_failPush {n : Nat} (hn : 0 < n) (ret : Int) (w : Wire) (hw : w.taken ≤ w.appended) :
    (failPush ret (2 * n)).eval (Wire.exec ρ clock uuid) w =
      if w.taken + drained n ≤ w.appended then some (ret, { w with taken := w.taken + drained n })
      else none := by
  unfold failPush
  rw [if_pos (by omega), eval_drainDec _ _ _ _ hw, drainCount_eq n hn]

/-- A wrong reply, with `left` replies still to come. -/
theorem failPush_empties {n : Nat} (left : Nat) (hn : 0 < n) (ret : Int) (w : Wire)
    (hw : w.appended = w.taken + left) :
    (∃ ret' w', (failPush ret (2 * n)).eval (Wire.exec ρ clock uuid) w = some (ret', w') ∧
      w'.taken = w'.appended) ↔ drained n = left := by
  rw [eval_failPush hn ret w (by omega)]
  constructor
  · rintro ⟨ret', w', he, ht⟩
    split at he
    · cases he
      simp only at ht
      omega
    · exact absurd he (by simp)
  · intro h
    rw [if_pos (by omega)]
    exact ⟨_, _, rfl, by simp only; omega⟩

/-- **The reply loop.** With `k` turns to go it empties the pipeline exactly when no reply is wrong
or `drained n` replies follow the first wrong one. -/
theorem pushReplies_empties {n : Nat} (hn : 0 < n) (k : Nat) (w : Wire)
    (hw : w.appended = w.taken + 2 * k) :
    (∃ ret w', (pushReplies (2 * n) k).eval (Wire.exec ρ clock uuid) w = some (ret, w') ∧
      w'.taken = w'.appended) ↔
    ∀ p < 2 * k, (∀ i < p, ¬ Wrong (ρ (w.taken + i))) → Wrong (ρ (w.taken + p)) →
      p + 1 + drained n = 2 * k := by
  induction k generalizing w with
  | zero =>
    constructor
    · intro _ p hp
      omega
    · intro _
      exact ⟨0, w, rfl, by omega⟩
  | succ k ih =>
    rw [pushReplies, eval_getReply, if_pos (by omega)]
    by_cases h₀ : Wrong (ρ w.taken)
    · -- the `RPUSH` reply is the wrong one
      simp only [if_pos ((checkReply_integer _).mpr h₀)]
      rw [failPush_empties (2 * k + 1) hn _ _ (by simp only; omega)]
      constructor
      · intro h p hp hmin _
        have hp0 : p = 0 := by
          by_contra hne
          exact hmin 0 (by omega) h₀
        omega
      · intro h
        have := h 0 (by omega) (fun i hi => absurd hi (by omega)) h₀
        omega
    · simp only [if_neg (fun h => h₀ ((checkReply_integer _).mp h))]
      rw [eval_getReply, if_pos (by simp only; omega)]
      by_cases h₁ : Wrong (ρ (w.taken + 1))
      · -- the `HSET` reply is the wrong one
        simp only [if_pos ((checkReply_integer _).mpr h₁)]
        rw [failPush_empties (2 * k) hn _ _ (by simp only; omega)]
        constructor
        · intro h p hp hmin hpw
          have hp1 : p = 1 := by
            by_contra hne
            rcases Nat.lt_or_ge p 1 with hlt | hge
            · have : p = 0 := by omega
              subst this
              exact h₀ hpw
            · exact hmin 1 (by omega) h₁
          omega
        · intro h
          have := h 1 (by omega) (fun i hi => by
            have : i = 0 := by omega
            subst this
            exact h₀) h₁
          omega
      · -- both replies are right: the next turn, two replies further
        simp only [if_neg (fun h => h₁ ((checkReply_integer _).mp h))]
        rw [ih { w with taken := w.taken + 1 + 1 } (by simp only; omega)]
        simp only
        constructor
        · intro h p hp hmin hpw
          have hp2 : 2 ≤ p := by
            by_contra hlt
            rcases Nat.lt_or_ge p 1 with hlt | hge
            · have : p = 0 := by omega
              subst this
              exact h₀ hpw
            · have : p = 1 := by omega
              subst this
              exact h₁ hpw
          have := h (p - 2) (by omega) (fun i hi => by
            have := hmin (i + 2) (by omega)
            rwa [show w.taken + (i + 2) = w.taken + 1 + 1 + i by ring] at this)
            (by rwa [show w.taken + 1 + 1 + (p - 2) = w.taken + p by omega])
          omega
        · intro h p hp hmin hpw
          have := h (p + 2) (by omega) (fun i hi => by
            rcases Nat.lt_or_ge i 2 with hlt | hge
            · rcases Nat.lt_or_ge i 1 with hlt' | hge'
              · have : i = 0 := by omega
                subst this
                exact h₀
              · have : i = 1 := by omega
                subst this
                exact h₁
            · have := hmin (i - 2) (by omega)
              rwa [show w.taken + 1 + 1 + (i - 2) = w.taken + i by omega] at this)
            (by rwa [show w.taken + (p + 2) = w.taken + 1 + 1 + p by ring])
          omega

theorem length_pushCmds (q : CStr) (ty : Int32) (buf : List CStr) (data : Bytes) (now : Nat) :
    (pushCmds q ty buf data now).length = 2 * turns ty buf := by
  unfold pushCmds turns
  split
  · induction buf with
    | nil => rfl
    | cons c buf ih =>
      rw [List.flatMap_cons, List.length_append, ih]
      simp only [List.length_cons, List.length_nil]
      omega
  · rfl

/-- The commands are appended, and the reply loop runs, as soon as the lock is released. -/
theorem pushMsg_go_empties (m : QueueMgr) (msgQueueCode data : Bytes) {m' : QueueMgr} {q c : CStr}
    {ty : Int32} {buf : List CStr}
    (hl : m.pushLock (clock 0) msgQueueCode = (.go q c ty buf, m')) :
    EmptiesPipeline ρ clock uuid m msgQueueCode data ↔
      ∀ p < 2 * turns ty buf, (∀ i < p, ¬ Wrong (ρ i)) → Wrong (ρ p) →
        p + 1 + drained (turns ty buf) = 2 * turns ty buf := by
  have he : Wire.exec ρ clock uuid (Wire.idle m) (.locked (.pushLock msgQueueCode)) =
      some (.go q c ty buf, ⟨m', 0, 0, 1⟩) := by
    simp only [Wire.exec, Section.run, Wire.idle, hl, Option.map_some]
  unfold EmptiesPipeline pushMsg
  rw [locked_bind, Prog.eval_act, he]
  simp only [Option.bind_some]
  by_cases hnone : ty = SUB2PUB ∧ buf.length = 0
  · rw [if_pos hnone]
    refine ⟨fun _ p hp => ?_, fun _ => ⟨_, _, rfl, rfl⟩⟩
    simp only [turns, if_pos hnone.1, hnone.2] at hp
    omega
  · rw [if_neg hnone]
    have hpos : 0 < turns ty buf := by
      unfold turns
      split
      · rename_i hty
        have : buf.length ≠ 0 := fun h => hnone ⟨hty, h⟩
        omega
      · omega
    have hrun : ∀ p : QProg Int, Prog.eval (Wire.exec ρ clock uuid)
        (time >>= fun now => appendAll (pushCmds q ty buf data now) >>= fun _ => p)
        ⟨m', 0, 0, 1⟩ = p.eval (Wire.exec ρ clock uuid) ⟨m', 2 * turns ty buf, 0, 2⟩ := by
      intro p
      rw [time_bind, Prog.eval_act]
      show (appendAll _ >>= fun _ => p).eval _ (⟨m', 0, 0, 2⟩ : Wire) = _
      rw [eval_appendAll, length_pushCmds]
      simp
    show (∃ ret w, Prog.eval _ (time >>= fun now => appendAll (pushCmds q ty buf data now) >>=
      fun _ => pushReplies (2 * turns ty buf) (turns ty buf)) _ = some (ret, w) ∧ _) ↔ _
    rw [hrun, pushReplies_empties hpos _ _ (by simp)]
    simp only [Nat.zero_add]

/-- A call that is refused under the lock appends nothing. -/
theorem pushMsg_refused_empties (m : QueueMgr) (msgQueueCode data : Bytes) {m' : QueueMgr}
    {res : QueueMgr.PushLock} (hl : m.pushLock (clock 0) msgQueueCode = (res, m'))
    (hres : ∀ q c ty buf, res ≠ .go q c ty buf) :
    EmptiesPipeline ρ clock uuid m msgQueueCode data := by
  have he : Wire.exec ρ clock uuid (Wire.idle m) (.locked (.pushLock msgQueueCode)) =
      some (res, ⟨m', 0, 0, 1⟩) := by
    simp only [Wire.exec, Section.run, Wire.idle, hl, Option.map_some]
  unfold EmptiesPipeline pushMsg
  rw [locked_bind, Prog.eval_act, he]
  cases res with
  | fail ret => exact ⟨_, _, rfl, rfl⟩
  | limit => exact ⟨_, _, rfl, rfl⟩
  | go q c ty buf => exact absurd rfl (hres q c ty buf)

/-- **`PushMsg` empties its pipeline** exactly when the call appends nothing (its code has no cached
queue, or the queue is full), no reply is wrong, or as many replies follow the first wrong one as
the drain loop reads. -/
theorem pushMsg_empties_iff (ρ : Nat → Reply) (clock : Nat → Nat) (uuid : Uuid) (m : QueueMgr)
    (msgQueueCode data : Bytes) :
    EmptiesPipeline ρ clock uuid m msgQueueCode data ↔
      ∀ item queue n, m.msgQueueCode2QueueName msgQueueCode = some item →
        m.name2Queue item.queueName = some queue → ¬ QueueMgr.full queue →
        n = turns queue.option.msgType (queue.clients.map SubQueue.client) →
        ∀ p < 2 * n, (∀ i < p, ¬ Wrong (ρ i)) → Wrong (ρ p) → p + 1 + drained n = 2 * n := by
  rcases m.pushLock_cases (clock 0) msgQueueCode with
    ⟨ret, -, hl, hnone⟩ | ⟨item, queue, hi, hq, hl⟩
  · refine ⟨fun _ item queue n hi hq => ?_, fun _ => ?_⟩
    · rw [hnone item hi] at hq
      cases hq
    · exact pushMsg_refused_empties m msgQueueCode data hl (by simp)
  · by_cases hf : QueueMgr.full queue
    · rw [if_pos hf] at hl
      refine ⟨fun _ item' queue' n hi' hq' hf' => ?_, fun _ => ?_⟩
      · cases hi.symm.trans hi'
        cases hq.symm.trans hq'
        exact absurd hf hf'
      · exact pushMsg_refused_empties m msgQueueCode data hl (by simp)
    · rw [if_neg hf] at hl
      rw [pushMsg_go_empties m msgQueueCode data hl]
      constructor
      · rintro h item' queue' n hi' hq' - rfl
        cases hi.symm.trans hi'
        cases hq.symm.trans hq'
        exact h
      · exact fun h => h item queue _ hi hq hf rfl

/-- A manager with one session, `[1]`, on a point-to-point queue. -/
def oneSession : QueueMgr where
  name2Queue q :=
    if q = ⟨ascii "q", by decide⟩ then some { Queue.empty with option := ⟨ascii "q", 0, 0, 0⟩ }
    else none
  msgQueueCode2QueueName code :=
    if code = [1] then some ⟨⟨ascii "q", by decide⟩, ⟨ascii "c", by decide⟩, 0⟩ else none
  msgCodeSequence := [⟨0, 0, [1]⟩]
  client2MsgCode _ := none
  nextNode := 1
  removeOnceCount := 1000

/-- Redis refuses the `RPUSH` (the key holds another type) and executes the `HSET`: one reply stays
in the pipeline. -/
theorem pushMsg_leaves_reply :
    ¬ EmptiesPipeline (fun i => if i = 0 then .error (ascii "WRONGTYPE") else .integer 0)
      (fun _ => 100) ⟨List.replicate 16 0, rfl⟩ oneSession [1] (ascii "hello") := by
  rintro ⟨ret, w, he, hw⟩
  have hev : ((pushMsg [1] (ascii "hello")).eval (Wire.exec
      (fun i => if i = 0 then .error (ascii "WRONGTYPE") else .integer 0) (fun _ => 100)
      ⟨List.replicate 16 0, rfl⟩) (Wire.idle oneSession)).map
      (fun rw => (rw.1, rw.2.appended, rw.2.taken)) = some (-1, 2, 1) := by rfl
  rw [he] at hev
  simp only [Option.map_some, Option.some.injEq, Prod.mk.injEq] at hev
  omega

end Domq.Mq

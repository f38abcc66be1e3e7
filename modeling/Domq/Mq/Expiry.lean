import Domq.Mq.Session

/-!
# Session expiry

With a clock that does not go back, `_msgCodeSequence` lists the sessions from the most to the least
recently used one, so the sessions `RemoveExpireMsgQueueCode(e)` is after are its tail.

The history says when a session was used: when it was opened, and at every `PushMsg` or `PopMsg`
whose lookup succeeded (`uses`). `Lru` says that the sequence is the recency list of the history,
less the sessions that have ended, and every action keeps it (`Lru.exec`).

* `expiry_exact`: one call drops the `min L k` least recently used of the `k` expired sessions, and
  `⌈k / L⌉` calls drop them all; every other session resolves to the queue and client it was opened
  with.
-/

namespace Domq.Mq

open Domq.Lib QueueMgr

/-! ## The history of the sessions -/

/-- The uses of sessions, with their times. -/
def uses (log : List Event) : List (Bytes × Int) :=
  log.filterMap fun
    | .did _ _ (.locked now s r) => (s.uses r).map fun code => (code, (now : Int))
    | _ => none

/-- The sessions opened, with their queues and clients. -/
def opens (log : List Event) : List (Bytes × CStr × CStr) :=
  log.filterMap fun
    | .did _ _ (.locked _ s r) => s.opens r
    | _ => none

/-- The session was last used before `e`. -/
def expired (log : List Event) (e : Int) (code : Bytes) : Bool :=
  match lastUse (uses log) code with
  | some t => t < e
  | none => false

theorem uses_locked (log : List Event) (t : Tid) (call : Option Call) (now : Nat) (s : Section)
    (r : s.Res) : uses (log ++ [.did t call (.locked now s r)]) =
      uses log ++ ((s.uses r).map fun code => (code, (now : Int))).toList := by
  unfold uses
  rw [List.filterMap_append]
  cases hs : s.uses r with
  | none => simp [hs]
  | some code => simp [hs]

theorem opens_locked (log : List Event) (t : Tid) (call : Option Call) (now : Nat) (s : Section)
    (r : s.Res) : opens (log ++ [.did t call (.locked now s r)]) =
      opens log ++ (s.opens r).toList := by
  unfold opens
  rw [List.filterMap_append]
  cases hs : s.opens r with
  | none => simp [hs]
  | some code => simp [hs]

/-! ## The sequence as a recency list -/

/-- The sequence, as codes with times. -/
def stamps (m : QueueMgr) : List (Bytes × Int) :=
  m.msgCodeSequence.map fun it => (it.msgQueueCode, it.time.toInt)

/-- The session has not ended. -/
def live (m : QueueMgr) (code : Bytes) : Bool := (m.msgQueueCode2QueueName code).isSome

theorem toInt_ofNat_now {now : Nat} (h : now < 2 ^ 31) : (Int32.ofNat now).toInt = now :=
  Int32.toInt_ofNat_of_lt h

theorem filter_stamps (P : Bytes → Bool) (m : QueueMgr) :
    (stamps m).filter (fun u => P u.1) =
      (m.msgCodeSequence.filter fun it => P it.msgQueueCode).map
        fun it => (it.msgQueueCode, it.time.toInt) := by
  unfold stamps
  rw [List.filter_map]
  rfl

/-- A use at the front, when the sequence without the code is what it was. -/
theorem stamps_use {m m' : QueueMgr} {now : Nat} (hnow : now < 2 ^ 31) {code : Bytes} (pos : Nat)
    {l : List (Bytes × Int)} (hl : stamps m = l.filter fun u => live m u.1)
    (hlive : ∀ code', code' ≠ code → live m' code' = live m code') (hcode : live m' code = true)
    (hseq : m'.msgCodeSequence = ⟨pos, Int32.ofNat now, code⟩ ::
      m.msgCodeSequence.filter fun it => it.msgQueueCode ≠ code) :
    stamps m' = (use code (now : Int) l).filter fun u => live m' u.1 := by
  have hrest : (l.filter fun u => live m' u.1).filter (fun u => decide (u.1 ≠ code)) =
      (l.filter fun u => live m u.1).filter fun u => decide (u.1 ≠ code) := by
    rw [List.filter_filter, List.filter_filter]
    apply List.filter_congr
    intro u _
    by_cases hu : u.1 = code
    · simp [hu]
    · simp [hu, hlive u.1 hu]
  rw [filter_use (live m'), if_pos hcode]
  unfold use
  rw [hrest, ← hl, filter_stamps (fun c => decide (c ≠ code))]
  unfold stamps
  rw [hseq, List.map_cons, toInt_ofNat_now hnow]

/-- One section keeps the sequence the recency list of the uses. -/
theorem stamps_step {now : Nat} {m m' : QueueMgr} {us : Option Bytes}
    {op : Option (Bytes × CStr × CStr)} (h : SessionStep now m m' us op) (hm : m.Sessions)
    (hm' : m'.Sessions) (hnow : now < 2 ^ 31) {us₀ : List (Bytes × Int)}
    (hl : stamps m = (recency us₀).filter fun u => live m u.1) :
    stamps m' = (recency (us₀ ++ (us.map fun code => (code, (now : Int))).toList)).filter
      fun u => live m' u.1 := by
  cases h with
  | @use code item hi hmap hseq =>
    simp only [Option.map_some, Option.toList_some, recency_append]
    refine stamps_use hnow item.pos hl (fun code' _ => by unfold live; rw [hmap]) ?_ hseq
    unfold live
    rw [hmap, hi]
    rfl
  | @opened code item hi hmap hseq =>
    simp only [Option.map_some, Option.toList_some, recency_append]
    refine stamps_use hnow item.pos hl (fun code' hne => ?_) ?_ ?_
    · unfold live
      rw [hmap, Function.update_of_ne hne]
    · unfold live
      rw [hmap, Function.update_self]
      rfl
    · -- the code was not in the sequence
      rw [hseq, List.filter_eq_self.mpr]
      intro it hit
      have hne : it.msgQueueCode ≠ code := by
        rintro rfl
        have := hm.listed it hit
        rw [hi] at this
        cases this
      simpa using hne
  | dropped hsub hmap =>
    simp only [Option.map_none, Option.toList_none, List.append_nil]
    have hlive : ∀ code, live m' code = true → live m code = true := by
      intro code hc
      unfold live at *
      rw [hmap] at hc
      split at hc
      · exact hc
      · cases hc
    have hseq : m'.msgCodeSequence =
        m.msgCodeSequence.filter fun it => live m' it.msgQueueCode := by
      refine (sublist_eq_filter (f := SeqItem.msgQueueCode) hsub hm.codes).trans ?_
      apply List.filter_congr
      intro it _
      unfold live
      rw [Bool.eq_iff_iff, hm'.isSome_iff]
      simp
    calc stamps m' = (stamps m).filter fun u => live m' u.1 := by
          rw [filter_stamps, ← hseq]
          rfl
      _ = (recency us₀).filter fun u => live m' u.1 := by
          rw [hl, List.filter_filter]
          apply List.filter_congr
          intro u _
          by_cases hu : live m' u.1 = true
          · simp [hu, hlive _ hu]
          · simp [hu]

/-- What holds of sequence, map and history when the clock does not go back. -/
structure Lru (w : World) : Prop where
  table : Table w
  order : stamps w.mgr = (recency (uses w.log)).filter fun u => live w.mgr u.1
  sorted : (uses w.log).Pairwise fun a b => a.2 ≤ b.2
  past : ∀ u ∈ uses w.log, u.2 ≤ w.clock
  opened : ∀ code item, w.mgr.msgQueueCode2QueueName code = some item →
    lastUse (opens w.log) code = some (item.queueName, item.clientName)

/-- Actions that read the clock. -/
def Act.readsClock : Act → Prop
  | .time => True
  | .locked _ => True
  | _ => False

/-- Runs whose clock readings never decrease and stay below `2 ^ 31`. -/
def timely : Guard Act World Env Op where
  call _ _ _ := True
  act w _ e a := a.readsClock → w.clock ≤ e.now ∧ e.now < 2 ^ 31

theorem opens_step {now : Nat} {m m' : QueueMgr} {us : Option Bytes}
    {op : Option (Bytes × CStr × CStr)} (h : SessionStep now m m' us op)
    {ops : List (Bytes × CStr × CStr)}
    (ho : ∀ code item, m.msgQueueCode2QueueName code = some item →
      lastUse ops code = some (item.queueName, item.clientName)) {code : Bytes} {item : CodeItem}
    (hi : m'.msgQueueCode2QueueName code = some item) :
    lastUse (ops ++ op.toList) code = some (item.queueName, item.clientName) := by
  cases h with
  | use _ hmap _ =>
    rw [hmap] at hi
    simpa using ho code item hi
  | @opened code₁ item₁ _ hmap _ =>
    rw [hmap] at hi
    rw [Option.toList_some, lastUse_append]
    by_cases hc : code = code₁
    · subst hc
      rw [Function.update_self] at hi
      cases hi
      simp
    · rw [Function.update_of_ne hc] at hi
      rw [if_neg (Ne.symm hc)]
      exact ho code item hi
  | dropped _ hmap =>
    rw [hmap] at hi
    split at hi
    · simpa using ho code item hi
    · cases hi

theorem Lru.lock {w w' : World} (h : Lru w) {t : Tid} {e : Env} {s : Section} {r : s.Res}
    (he : w.clock ≤ e.now ∧ e.now < 2 ^ 31) (hl : w.lock t e s = some (r, w')) : Lru w' := by
  obtain ⟨htab, -, hstep⟩ := h.table.lock hl
  obtain ⟨-, m', -, rfl⟩ := World.lock_eq hl
  refine ⟨htab, ?_, ?_, ?_, ?_⟩
  · simp only [World.did, uses_locked]
    exact stamps_step hstep h.table.sessions htab.sessions he.2 h.order
  · simp only [World.did, uses_locked]
    refine List.pairwise_append.mpr ⟨h.sorted, ?_, fun u hu v hv => ?_⟩
    · cases s.uses r <;> simp
    · have hv' : v.2 = e.now := by
        obtain ⟨code, -, rfl⟩ := Option.map_eq_some_iff.mp (Option.mem_toList.mp hv)
        rfl
      have := h.past u hu
      omega
  · intro u hu
    simp only [World.did, uses_locked] at hu ⊢
    rcases List.mem_append.mp hu with hu | hu
    · have := h.past u hu
      omega
    · obtain ⟨code, -, rfl⟩ := Option.map_eq_some_iff.mp (Option.mem_toList.mp hu)
      exact le_refl _
  · intro code item hi
    simp only [World.did, opens_locked] at hi ⊢
    exact opens_step hstep h.opened hi

theorem Lru.exec (link : Link) {w w' : World} (h : Lru w) {t : Tid} {e : Env} {a : Act} {r : a.Res}
    (he : a.readsClock → w.clock ≤ e.now ∧ e.now < 2 ^ 31)
    (hex : w.exec link t e a = some (r, w')) : Lru w' := by
  have htab := h.table.exec link hex
  rcases World.exec_cases hex with ⟨hmgr, -, hclock, hlog⟩ | ⟨s, rfl⟩
  · have huses : uses w'.log = uses w.log ∧ opens w'.log = opens w.log := by
      rcases hlog with hlog | ⟨c, r', hlog⟩
      · rw [hlog]
        exact ⟨rfl, rfl⟩
      · rw [hlog]
        simp [uses, opens]
    have hle : w.clock ≤ w'.clock := by
      rcases hclock with hclock | ⟨rfl, hclock⟩
      · omega
      · have := he trivial
        omega
    refine ⟨htab, ?_, ?_, ?_, ?_⟩
    · rw [hmgr, huses.1]
      exact h.order
    · rw [huses.1]
      exact h.sorted
    · intro u hu
      rw [huses.1] at hu
      have := h.past u hu
      omega
    · rw [hmgr, huses.2]
      exact h.opened
  · exact h.lock (he trivial) hex

/-! ## Exactness -/

/-- The codes of the sequence, in its order. -/
def codes (m : QueueMgr) : List Bytes := m.msgCodeSequence.map SeqItem.msgQueueCode

/-- The sequence has the younger sessions in front. -/
def Ordered (m : QueueMgr) : Prop :=
  m.msgCodeSequence.Pairwise fun a b => b.time.toInt ≤ a.time.toInt

/-- `RemoveExpireMsgQueueCode(e)`, called `n` times. -/
def removeExpireTimes (e : Int) : Nat → QueueMgr → Option QueueMgr
  | 0, m => some m
  | n + 1, m => (m.removeExpireMsgQueueCode e).bind (removeExpireTimes e n)

theorem Ordered.stale {m : QueueMgr} (h : Ordered m) (e : Int) :
    m.msgCodeSequence.Pairwise fun a b => stale e a → stale e b := by
  refine h.imp fun {a b} hab ha => ?_
  unfold QueueMgr.stale at *
  rw [decide_eq_true_eq] at *
  omega

theorem Ordered.passed_eq {m : QueueMgr} (h : Ordered m) (e : Int) :
    m.passed e =
      min m.removeOnceCount.toInt.toNat (m.msgCodeSequence.countP (QueueMgr.stale e)) := by
  unfold passed
  rw [length_takeWhile _ (List.pairwise_reverse.mpr (h.stale e)), List.countP_reverse]

/-- After `n` calls the last `min (n L) k` sessions are gone. -/
theorem removeExpireTimes_spec (e : Int) (n : Nat) {m : QueueMgr} (hs : m.Sessions)
    (ho : Ordered m) :
    ∃ m', removeExpireTimes e n m = some m' ∧
      m'.msgCodeSequence = m.msgCodeSequence.take (m.msgCodeSequence.length -
        min (n * m.removeOnceCount.toInt.toNat) (m.msgCodeSequence.countP (QueueMgr.stale e))) ∧
      ∀ code, m'.msgQueueCode2QueueName code =
        if code ∈ codes m' then m.msgQueueCode2QueueName code else none := by
  induction n generalizing m with
  | zero =>
    refine ⟨m, rfl, by simp, fun code => ?_⟩
    split
    · rfl
    · rename_i hc
      exact hs.eq_none hc
  | succ n ih =>
    obtain ⟨m₁, he, hsame, hseq, hmap⟩ := hs.removeExpire_spec e
    have hcount := countP_take_of_pairwise (QueueMgr.stale e) (ho.stale e)
      (Nat.min_le_right m.removeOnceCount.toInt.toNat _)
    rw [ho.passed_eq] at hseq
    have ho₁ : Ordered m₁ := by
      unfold Ordered
      rw [hseq]
      exact List.Pairwise.sublist (List.take_sublist _ _) ho
    obtain ⟨m', he', hseq', hmap'⟩ := ih (hs.removeExpire he) ho₁
    have hle := List.countP_le_length (p := QueueMgr.stale e) (l := m.msgCodeSequence)
    refine ⟨m', by rw [removeExpireTimes, he]; exact he', ?_, fun code => ?_⟩
    · rw [hseq', hsame.removeOnceCount, hseq, hcount, List.take_take, List.length_take,
        Nat.succ_mul]
      congr 1
      omega
    · rw [hmap', hmap]
      by_cases hc : code ∈ codes m'
      · have hc₁ : code ∈ m₁.msgCodeSequence.map SeqItem.msgQueueCode := by
          unfold codes at hc
          rw [hseq'] at hc
          exact List.map_subset _ (List.take_subset _ _) hc
        rw [if_pos hc, if_pos hc, if_pos hc₁]
      · rw [if_neg hc, if_neg hc]

section

variable {w : World}

/-- A node's time is the last use of its session. -/
theorem Lru.lastUse (h : Lru w) {it : SeqItem} (hit : it ∈ w.mgr.msgCodeSequence) :
    lastUse (uses w.log) it.msgQueueCode = some it.time.toInt := by
  have hmem : (it.msgQueueCode, it.time.toInt) ∈ stamps w.mgr :=
    List.mem_map.mpr ⟨it, hit, rfl⟩
  rw [h.order] at hmem
  exact mem_recency.mp (List.mem_filter.mp hmem).1

theorem Lru.stale_eq (h : Lru w) {it : SeqItem} (hit : it ∈ w.mgr.msgCodeSequence) (e : Int) :
    stale e it = expired w.log e it.msgQueueCode := by
  unfold QueueMgr.stale expired
  rw [h.lastUse hit]

theorem Lru.ordered (h : Lru w) : Ordered w.mgr := by
  have hst : (stamps w.mgr).Pairwise fun a b => b.2 ≤ a.2 := by
    rw [h.order]
    exact (sorted_recency h.sorted).filter _
  exact List.pairwise_map.mp hst

theorem Lru.countP_eq (h : Lru w) (e : Int) :
    w.mgr.msgCodeSequence.countP (stale e) = (codes w.mgr).countP (expired w.log e) := by
  unfold codes
  rw [List.countP_map]
  apply List.countP_congr
  intro it hit
  rw [h.stale_eq hit]
  rfl

/-- The sessions behind a cut not longer than the number of expired ones have expired. -/
theorem Lru.expired_of_drop (h : Lru w) {e : Int} {n : Nat}
    (hn : n ≤ (codes w.mgr).countP (expired w.log e)) {code : Bytes}
    (hc : code ∈ (codes w.mgr).drop ((codes w.mgr).length - n)) : expired w.log e code := by
  unfold codes at hc
  rw [List.length_map, ← List.map_drop] at hc
  obtain ⟨it, hit, rfl⟩ := List.mem_map.mp hc
  rw [← h.stale_eq (List.mem_of_mem_drop hit)]
  exact of_mem_drop _ (h.ordered.stale e) (h.countP_eq e ▸ hn) hit

theorem Lru.codes_eq (h : Lru w) :
    codes w.mgr = ((recency (uses w.log)).map Prod.fst).filter (live w.mgr) := by
  have hcodes : codes w.mgr = (stamps w.mgr).map Prod.fst := by
    simp [codes, stamps]
  rw [hcodes, h.order, List.filter_map]
  rfl

/-- One call drops the last `min L k` sessions. -/
theorem Lru.removeExpire (h : Lru w) (e : Int) {n : Nat}
    (hn : n = min w.mgr.removeOnceCount.toInt.toNat ((codes w.mgr).countP (expired w.log e))) :
    ∃ m', w.mgr.removeExpireMsgQueueCode e = some m' ∧
      codes m' = (codes w.mgr).take ((codes w.mgr).length - n) ∧
      (∀ code ∈ (codes w.mgr).drop ((codes w.mgr).length - n),
        expired w.log e code ∧ m'.msgQueueCode2QueueName code = none) ∧
      ∀ code ∉ (codes w.mgr).drop ((codes w.mgr).length - n),
        m'.msgQueueCode2QueueName code = w.mgr.msgQueueCode2QueueName code := by
  obtain ⟨m', he, -, hseq, hmap⟩ := h.table.sessions.removeExpire_spec e
  rw [h.ordered.passed_eq, h.countP_eq, ← hn] at hseq
  have hcodes : codes m' = (codes w.mgr).take ((codes w.mgr).length - n) := by
    unfold codes
    rw [hseq, List.map_take, List.length_map]
  have hnd : (codes w.mgr).Nodup := h.table.sessions.codes
  rw [← List.take_append_drop ((codes w.mgr).length - n) (codes w.mgr), List.nodup_append] at hnd
  refine ⟨m', he, hcodes, fun code hc => ⟨h.expired_of_drop (by omega) hc, ?_⟩, fun code hc => ?_⟩
  · rw [hmap, if_neg]
    intro hk
    have hk' : code ∈ codes m' := hk
    rw [hcodes] at hk'
    exact hnd.2.2 code hk' code hc rfl
  · rw [hmap]
    split
    · rfl
    · rename_i hk
      have hk' : code ∉ codes m' := hk
      symm
      apply h.table.sessions.eq_none
      intro hin
      have hin' : code ∈ codes w.mgr := hin
      rw [← List.take_append_drop ((codes w.mgr).length - n) (codes w.mgr), List.mem_append] at hin'
      rcases hin' with hin' | hin'
      · rw [hcodes] at hk'
        exact hk' hin'
      · exact hc hin'

/-- As many calls as it takes drop every expired session. -/
theorem Lru.removeExpireTimes (h : Lru w) (e : Int) {n : Nat}
    (hn : (codes w.mgr).countP (expired w.log e) ≤ n * w.mgr.removeOnceCount.toInt.toNat) :
    ∃ m', removeExpireTimes e n w.mgr = some m' ∧ ∀ code, m'.msgQueueCode2QueueName code =
      if expired w.log e code then none else w.mgr.msgQueueCode2QueueName code := by
  obtain ⟨m', he, hseq, hmap⟩ := removeExpireTimes_spec e n h.table.sessions h.ordered
  rw [Nat.min_eq_right (by rw [h.countP_eq]; exact hn)] at hseq
  have hnone := countP_take_of_pairwise (QueueMgr.stale e) (h.ordered.stale e) (Nat.le_refl _)
  rw [Nat.sub_self, ← hseq, List.countP_eq_zero] at hnone
  refine ⟨m', he, fun code => ?_⟩
  rw [hmap]
  by_cases hin : code ∈ codes w.mgr
  · obtain ⟨it, hit, rfl⟩ := List.mem_map.mp hin
    by_cases hx : expired w.log e it.msgQueueCode = true
    · rw [if_pos hx]
      split
      · -- a session that is left has not expired
        rename_i hk
        obtain ⟨it', hit', hcode⟩ := List.mem_map.mp hk
        have hmem : it' ∈ w.mgr.msgCodeSequence := by
          rw [hseq] at hit'
          exact List.mem_of_mem_take hit'
        have heq : it' = it :=
          List.inj_on_of_nodup_map h.table.sessions.codes hmem hit hcode
        rw [← h.stale_eq hit, ← heq] at hx
        exact absurd hx (hnone it' hit')
      · rfl
    · rw [if_neg hx, if_pos]
      -- a session behind the cut has expired
      rw [← h.stale_eq hit] at hx
      unfold codes
      rw [hseq]
      refine List.mem_map_of_mem ?_
      have hit' := hit
      rw [← List.take_append_drop (w.mgr.msgCodeSequence.length -
        w.mgr.msgCodeSequence.countP (QueueMgr.stale e)) w.mgr.msgCodeSequence,
        List.mem_append] at hit'
      rcases hit' with hit' | hit'
      · exact hit'
      · exact absurd (of_mem_drop _ (h.ordered.stale e) (Nat.le_refl _) hit') hx
  · have hnone' : w.mgr.msgQueueCode2QueueName code = none := h.table.sessions.eq_none hin
    rw [hnone']
    simp

end

theorem lru_boot {c : Conf} (hb : Boot c) (h₀ : NoSessions c.shared.mgr) : Lru c.shared := by
  refine ⟨h₀.table, ?_, ?_, ?_, ?_⟩
  · rw [hb.log]
    simp [stamps, h₀.seq, uses, recency]
  · rw [hb.log]
    exact List.Pairwise.nil
  · rw [hb.log]
    simp [uses]
  · simp [h₀.map]

/-- **Session expiry is exact.** In every state of a run whose clock does not go back:
`_msgCodeSequence` is ordered from the most to the least recently used session; a session resolves
to the queue and client it was opened with; `RemoveExpireMsgQueueCode(e)` drops the last `min L k`
codes, `k` being the number of sessions last used before `e`, all of them expired, and keeps the
entry of every other code; and `⌈k / L⌉` calls drop exactly the expired ones. -/
theorem expiry_exact {c₀ c : Conf} (hb : Boot c₀) (h₀ : NoSessions c₀.shared.mgr)
    (hc : (server .any).Reach timely c₀ c) {w : World} (hw : w = c.shared) :
    codes w.mgr = ((recency (uses w.log)).map Prod.fst).filter (live w.mgr) ∧
    (∀ code item, w.mgr.msgQueueCode2QueueName code = some item →
      lastUse (opens w.log) code = some (item.queueName, item.clientName)) ∧
    (∀ e n, 0 ≤ w.mgr.removeOnceCount.toInt →
      n = min w.mgr.removeOnceCount.toInt.toNat ((codes w.mgr).countP (expired w.log e)) →
      ∃ m', w.mgr.removeExpireMsgQueueCode e = some m' ∧
        codes m' = (codes w.mgr).take ((codes w.mgr).length - n) ∧
        (∀ code ∈ (codes w.mgr).drop ((codes w.mgr).length - n),
          expired w.log e code ∧ m'.msgQueueCode2QueueName code = none) ∧
        ∀ code ∉ (codes w.mgr).drop ((codes w.mgr).length - n),
          m'.msgQueueCode2QueueName code = w.mgr.msgQueueCode2QueueName code) ∧
    ∀ e L k, 0 < w.mgr.removeOnceCount.toInt → L = w.mgr.removeOnceCount.toInt.toNat →
      k = (codes w.mgr).countP (expired w.log e) →
      ∃ m', removeExpireTimes e ((k + L - 1) / L) w.mgr = some m' ∧
        ∀ code, m'.msgQueueCode2QueueName code =
          if expired w.log e code then none else w.mgr.msgQueueCode2QueueName code := by
  have h : Lru w := by
    rw [hw]
    refine hc.of_steps (lru_boot hb h₀) ?_ ?_ ?_
    · intro w t op hw _
      exact ⟨⟨hw.table.sessions, hw.table.used⟩, hw.order, hw.sorted, hw.past, hw.opened⟩
    · intro w t e a r w' hw he hex
      exact hw.exec .any he hex
    · intro w t op x hw
      have huses : uses (w.log ++ [.ret t (w.cur t) x]) = uses w.log := by simp [uses]
      have hopens : opens (w.log ++ [.ret t (w.cur t) x]) = opens w.log := by simp [opens]
      refine ⟨⟨hw.table.sessions, hw.table.used⟩, ?_, ?_, ?_, ?_⟩
      · simp only [server, huses]
        exact hw.order
      · simp only [server, huses]
        exact hw.sorted
      · simp only [server, huses]
        exact hw.past
      · simp only [server, hopens]
        exact hw.opened
  refine ⟨h.codes_eq, h.opened, fun e n _ hn => h.removeExpire e hn, fun e L k hL hL' hk => ?_⟩
  refine h.removeExpireTimes e ?_
  rw [← hL', ← hk]
  have hpos : 0 < L := by omega
  have := Nat.lt_mul_div_succ (k + L - 1) hpos
  rw [Nat.mul_add, Nat.mul_comm L] at this
  omega

/-- A test that suffices for `timely`. -/
def inTime (c : Conf) : Sys.Move Env Op → Bool
  | .call _ _ => true
  | .step _ e => c.shared.clock ≤ e.now && e.now < 2 ^ 31

theorem allows_timely (c : Conf) (mv : Sys.Move Env Op) (h : inTime c mv) :
    Sys.Allows timely c mv := by
  cases mv with
  | call t op => exact True.intro
  | step t e =>
    have he : c.shared.clock ≤ e.now ∧ e.now < 2 ^ 31 := by simpa [inTime] using h
    exact Sys.allows_step fun _ _ _ _ _ => he

/-- Two sessions, opened at `5` and at `8`. -/
def twoSessions : List (Sys.Move Env Op) :=
  let a : OpenArgs :=
    ⟨⟨ascii "q", noNul_q⟩, 0, 0, 0, .publisher, 0, ⟨ascii "c", noNul_c⟩⟩
  let env (n : Nat) (b : UInt8) : Env := ⟨n, .ofByte b, some (.integer 1)⟩
  [.call 0 (.openQueue a), .step 0 (env 5 1), .step 0 (env 5 1), .step 0 (env 5 1),
    .call 0 (.openQueue a), .step 0 (env 6 2), .step 0 (env 8 2), .step 0 (env 8 2)]

/-- Expiry at `7` drops the first session and keeps the second. -/
theorem expiry_two_sessions :
    ∃ c m', (server .any).Reach timely (boot (QueueMgr.init 1) fun _ => none) c ∧
      codes c.shared.mgr = [hexText (List.replicate 16 2), hexText (List.replicate 16 1)] ∧
      c.shared.mgr.removeExpireMsgQueueCode 7 = some m' ∧
      codes m' = [hexText (List.replicate 16 2)] := by
  have hreach := Sys.reach_get allows_timely (server .any)
    (boot (QueueMgr.init 1) fun _ => none) twoSessions rfl
  obtain ⟨m', he, hcodes, -⟩ := (expiry_exact (boot_boot _ _) (noSessions_init 1) hreach rfl).2.2.1
    7 1 (by decide) rfl
  exact ⟨_, m', hreach, rfl, he, hcodes⟩

end Domq.Mq

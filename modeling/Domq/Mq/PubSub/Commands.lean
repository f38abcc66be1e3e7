import Domq.Mq.PubSub.Agreed

/-!
# A command keeps the subscribers agreed

Redis executes a command of the call in progress: `Agreed.redis`. Three kinds of commands change
what is compared (`Agreed.exec_cases`): the name of a queue is added, its metadata is written, or a
subscriber is; every other one `Keeps` it.
-/

namespace Domq.Mq

open Domq.Lib Domq.Redis OpenArgs

section

variable {st st' : Store} {m m' : QueueMgr} {log log' : List Event} {cur cur' : Option Call}
variable {call : Call} {q : CStr}

/-! ## A command -/

theorem Creating.exec {c : Cmd} (h : Creating q call) (hex : Exec call c) (r : Reply) :
    Creating q (call.did (.redis c r)) := by
  cases h with
  | named a r₀ hq =>
    generalize hcall : (⟨.openQueue a, _⟩ : Call) = call at hex
    cases hex with
    | create a' hc r₁ now =>
      cases hcall
      exact .created a r₀ now r hq
    | _ => cases hcall
  | created a r₀ now r' hq =>
    generalize hcall : (⟨.openQueue a, _⟩ : Call) = call at hex
    cases hex with
    | _ => cases hcall

theorem enters_redis {c : CStr} {cmd : Cmd} {r : Reply} :
    Enters q c (call.did (.redis cmd r)) ↔ Enters q c call := by
  simp [Enters, Call.did]

theorem Adds.args {c : CStr} {a : OpenArgs} {evs : List Ev} (h : Adds q c ⟨.openQueue a, evs⟩) :
    a.msgQueueName = q ∧ a.clientName = c := by
  generalize hcall : (⟨.openQueue a, evs⟩ : Call) = call at h
  cases h with
  | mk a' r now r' hq hc =>
    injection hcall with hop
    cases hop
    exact ⟨hq, hc⟩

theorem not_adds_redis {c : CStr} {cmd : Cmd} {r : Reply}
    (h : ∀ (a : OpenArgs) now, cmd ≠ a.addClient now) : ¬ Adds q c (call.did (.redis cmd r)) := by
  intro hadds
  obtain ⟨-, a, now, r', hev, -⟩ := adds_did hadds
  injection hev with hcmd
  exact h a now hcmd

/-- The metadata of a queue that had none is written. -/
theorem keeps_writeMeta {a : OpenArgs} {now : Nat} (hs : Stored st)
    (hf : (a.writeMeta now).Fits st) (hmem : a.msgQueueName.bytes ∈ st.members allQueueName)
    (hnil : st.hash (getQueueMetaName a.msgQueueName.bytes) = []) :
    Keeps st ((a.writeMeta now).exec st).2 ∧ Stored ((a.writeMeta now).exec st).2 := by
  obtain ⟨hg, hs'⟩ := grows_writeMeta hs hf hmem (.inl hnil)
  refine ⟨⟨Cmd.members_exec hf _, hg.types, fun q => ?_⟩, hs'⟩
  unfold subscribers
  rw [Cmd.hash_exec hf]
  simp only [OpenArgs.writeMeta, Cmd.onHash, if_neg (getQueueMetaName_ne_sub _ _)]

/-- What a command of the call in progress does: it keeps names, types and subscribers, or it adds
the name of a new queue, or a new subscriber. -/
theorem Agreed.exec_cases {c : Cmd} (h : Agreed st m log (some call)) (hex : Exec call c)
    (hf : c.Fits st) :
    (Keeps st (c.exec st).2 ∧ Stored (c.exec st).2 ∧ ∀ a now, c ≠ OpenArgs.addClient a now) ∨
    (∃ a, call = ⟨.openQueue a, [.redis a.isMember (.integer 0)]⟩ ∧ c = a.addName ∧ a.Creates) ∨
    ∃ a h now, call = ⟨.openQueue a, [.redis a.isMember (.integer 1), .redis a.readMeta h,
      .redis a.isClient (.integer 0)]⟩ ∧ a.Finds h ∧ a.msgType ≠ PEER2PEER ∧
        c = a.addClient now := by
  have hsound := h.sound _ rfl
  have hsame : (∀ k h, c.onHash k h = h) → (∀ k s, c.onMembers k s = s) →
      (∀ a now, c ≠ OpenArgs.addClient a now) →
      Keeps st (c.exec st).2 ∧ Stored (c.exec st).2 ∧ ∀ a now, c ≠ OpenArgs.addClient a now := by
    intro hh hm hne
    obtain ⟨hkeep, hs⟩ := keeps_of_same h.stored hf hh hm
    exact ⟨hkeep, hs, hne⟩
  cases hex with
  | isMember a hr => exact .inl (hsame (fun _ _ => rfl) (fun _ _ => rfl) nofun)
  | addName a hc => exact .inr (.inl ⟨a, rfl, rfl, hc⟩)
  | create a hc r now =>
    obtain ⟨hkeep, hs⟩ := keeps_writeMeta h.stored hf
      (hsound.knows (.redis a.addName r) (by simp) rfl) (hsound.fresh a r (.inr rfl))
    refine .inl ⟨hkeep, hs, fun a' now' heq => ?_⟩
    injection heq with hk
    exact getQueueMetaName_ne_sub _ _ hk
  | readMeta a hr r => exact .inl (hsame (fun _ _ => rfl) (fun _ _ => rfl) nofun)
  | isClient a r hfi hp => exact .inl (hsame (fun _ _ => rfl) (fun _ _ => rfl) nofun)
  | addClient a r hfi hp now => exact .inr (.inr ⟨a, r, now, rfl, hfi, hp, rfl⟩)
  | push code data now q cl ty buf evs now' rest _ hcmds =>
    left
    obtain ⟨option, hcache, rfl⟩ := hsound.pushes now code q cl ty buf rfl
    obtain ⟨-, ht, hcopies⟩ := h.of_cache hcache
    have hmem := Exec.mem_pushCmds hcmds
    unfold pushCmds at hmem
    split at hmem
    · rename_i hty
      obtain ⟨cl', hcl, hc⟩ := List.mem_flatMap.mp hmem
      rcases List.mem_pair.mp hc with rfl | rfl
      · exact hsame (fun _ _ => rfl) (fun _ _ => rfl) nofun
      · obtain ⟨hkeep, hs⟩ := keeps_visitSub h.stored rfl hf
          (((hcopies hty).stored cl').mpr (.inl hcl))
        exact ⟨hkeep, hs, nofun⟩
    · rcases List.mem_pair.mp hmem with rfl | rfl
      · exact hsame (fun _ _ => rfl) (fun _ _ => rfl) nofun
      · obtain ⟨hkeep, hs⟩ := keeps_visit h.stored rfl hf ht
        exact ⟨hkeep, hs, nofun⟩
  | pop code now q cl ty => exact .inl (hsame (fun _ _ => rfl) (fun _ _ => rfl) nofun)
  | popVisit code now q cl ty r now' =>
    left
    obtain ⟨option, clients, hcache, rfl, hcl⟩ := hsound.pops now code q cl ty rfl
    obtain ⟨-, ht, hcopies⟩ := h.of_cache hcache
    by_cases hty : option.msgType = SUB2PUB
    · have hcmd : popVisit q cl option.msgType now' =
          .hset (getSubQueueMetaName q.bytes) cl.bytes (fmtInt (Int32.ofNat now').toInt) :=
        if_pos hty
      obtain ⟨hkeep, hs⟩ := keeps_visitSub h.stored hcmd hf
        (((hcopies hty).stored cl).mpr (.inl (hcl hty)))
      rw [hcmd] at hkeep hs ⊢
      exact ⟨hkeep, hs, nofun⟩
    · have hcmd : popVisit q cl option.msgType now' = .hset (getQueueMetaName q.bytes)
          (ascii "lastvisit") (fmtInt (Int32.ofNat now').toInt) := if_neg hty
      obtain ⟨hkeep, hs⟩ := keeps_visit h.stored hcmd hf ht
      rw [hcmd] at hkeep hs ⊢
      exact ⟨hkeep, hs, nofun⟩
  | names => exact .inl (hsame (fun _ _ => rfl) (fun _ _ => rfl) nofun)
  | load ev evs hr _ hc =>
    cases hc <;> exact .inl (hsame (fun _ _ => rfl) (fun _ _ => rfl) nofun)

theorem did_head {ev x : Ev} (h : (call.did ev).evs.head? = some x) :
    (call.evs = [] ∧ ev = x) ∨ call.evs.head? = some x := by
  obtain ⟨op, evs⟩ := call
  cases evs with
  | nil =>
    cases h
    exact .inl ⟨rfl, rfl⟩
  | cons ev' evs => exact .inr h

theorem Current.same {ev : Ev} (h : Current st ev) (hh : ∀ k, st'.hash k = st.hash k)
    (hm : ∀ k, st'.members k = st.members k) : Current st' ev := by
  cases ev with
  | locked now s r => exact trivial
  | redis c r =>
    cases c with
    | smembers k =>
      show r = _
      rw [hm]
      exact h
    | hgetall k =>
      show r = _
      rw [hh]
      exact h
    | _ => exact trivial

theorem current_exec {c : Cmd} (hf : c.Fits st) : Current st (.redis c (c.exec st).1) := by
  rw [Cmd.exec_reply hf]
  cases c with
  | smembers k => exact rfl
  | hgetall k => exact rfl
  | _ => exact trivial

/-- A queue that is not among the names has no metadata. -/
theorem Stored.hash_eq_nil (h : Stored st) (hn : q.bytes ∉ st.members allQueueName) :
    st.hash (getQueueMetaName q.bytes) = [] := by
  rcases h q with ⟨hnil, -⟩ | ⟨-, hmem⟩
  · exact hnil
  · exact absurd hmem hn

theorem not_mem_of_isMember {a : OpenArgs} (hf : a.isMember.Fits st)
    (h : (a.isMember.exec st).1 = .integer 0) :
    a.msgQueueName.bytes ∉ st.members allQueueName := by
  rw [Cmd.exec_reply hf] at h
  intro hmem
  simp only [OpenArgs.isMember, Cmd.reply, if_pos hmem] at h
  cases h

/-- What the call in progress knows after a command. -/
theorem Agreed.sound_redis {c : Cmd} (h : Agreed st m log (some call)) (hex : Exec call c)
    (hf : c.Fits st) (hg : Grows st (c.exec st).2) :
    Sound (c.exec st).2 m (call.did (.redis c (c.exec st).1)) := by
  have hsound := h.sound _ rfl
  refine ⟨hsound.served, fun ev hev => ?_, fun a r hcall => ?_, fun a now r hop hmem => ?_,
    fun q cl hck => ?_, fun now code q cl ty buf hhead => ?_, fun now code q cl ty hhead => ?_,
    fun hop ev hev => ?_⟩
  · rcases List.mem_append.mp hev with hev | hev
    · exact (hsound.knows ev hev).mono hg
    · rw [List.mem_singleton.mp hev]
      exact knows_exec h.stored hf
  · obtain ⟨op, evs⟩ := call
    rcases hcall with hcall | hcall
    · -- it has just found the name missing
      injection hcall with hop hevs
      obtain ⟨rfl, hev⟩ := evs_concat (l := []) hevs
      injection hev with hcmd hrep
      subst hcmd
      rw [Cmd.hash_exec hf]
      exact h.stored.hash_eq_nil (not_mem_of_isMember hf hrep)
    · injection hcall with hop hevs
      obtain ⟨rfl, hev⟩ := evs_concat (l := [_]) hevs
      injection hev with hcmd hrep
      subst hcmd hop
      rw [Cmd.hash_exec hf]
      exact hsound.fresh a r (.inl rfl)
  · rcases List.mem_append.mp hmem with hmem | hmem
    · exact hg.types _ _ (hsound.wrote a now r hop hmem)
    · injection List.mem_singleton.mp hmem with hcmd hrep
      have hop' : call.op = .openQueue a := hop
      cases hex with
      | create a' hc r₀ now' =>
        cases hop'
        refine ⟨a, now', rfl, rfl, ?_⟩
        rw [Cmd.hash_exec hf]
        simp only [OpenArgs.writeMeta, Cmd.onHash, if_true]
        rw [hsound.fresh a r₀ (.inr rfl), hmset_metaFields_nil]
      | addClient a' r₀ hfi hp now' =>
        injection hcmd with hk
        exact absurd hk (getQueueMetaName_ne_sub _ _)
      | isMember | addName | readMeta | isClient => cases hcmd
      | _ => cases hop'
  · obtain ⟨a, r, -, hev, rfl, rfl⟩ := checks_did hck
    injection hev with hcmd hrep
    subst hcmd
    have hsubs : subscribers (a.isClient.exec st).2 a.msgQueueName =
        subscribers st a.msgQueueName := by
      unfold subscribers
      rw [Cmd.hash_exec hf]
      rfl
    rw [hsubs]
    exact not_mem_of_isClient hf hrep
  · rcases did_head hhead with ⟨-, hev⟩ | hhead
    · cases hev
    · exact hsound.pushes now code q cl ty buf hhead
  · rcases did_head hhead with ⟨-, hev⟩ | hhead
    · cases hev
    · exact hsound.pops now code q cl ty hhead
  · have hop' : call.op = .loadQueueMeta := hop
    have hsame : (∀ k h, c.onHash k h = h) ∧ ∀ k s, c.onMembers k s = s := by
      cases hex with
      | names => exact ⟨fun _ _ => rfl, fun _ _ => rfl⟩
      | load ev₀ evs hr _ hc => cases hc <;> exact ⟨fun _ _ => rfl, fun _ _ => rfl⟩
      | _ => cases hop'
    have hcur : Current st ev := by
      rcases List.mem_append.mp hev with hev | hev
      · exact hsound.current hop ev hev
      · rw [List.mem_singleton.mp hev]
        exact current_exec hf
    exact hcur.same (fun k => (Cmd.hash_exec hf k).trans (hsame.1 k _))
      fun k => (Cmd.members_exec hf k).trans (hsame.2 k _)

/-! ## The history -/

theorem subscribed_did {c : CStr} {t : Tid} {o : Option Call} {ev : Ev} :
    Subscribed (log ++ [.did t o ev]) q c ↔ Subscribed log q c := by
  simp [Subscribed]

theorem concat_eq_split {e x : Event} {before after : List Event}
    (h : log ++ [e] = before ++ x :: after) :
    (log = before ∧ e = x) ∨ ∃ after', log = before ++ x :: after' := by
  rcases List.eq_nil_or_concat after with rfl | ⟨after', y, rfl⟩
  · obtain ⟨hlog, he⟩ := List.append_inj' h rfl
    exact .inl ⟨hlog, List.singleton_inj.mp he⟩
  · rw [List.concat_eq_append, ← List.cons_append, ← List.append_assoc] at h
    exact .inr ⟨after', (List.append_inj' h rfl).1⟩

theorem PubSub.did (h : PubSub log) (t : Tid) (o : Option Call) (ev : Ev) :
    PubSub (log ++ [.did t o ev]) := by
  intro before after t' code data evs x heq hx
  rcases concat_eq_split heq with ⟨-, he⟩ | ⟨after', hlog⟩
  · cases he
  · exact h before after' t' code data evs x hlog hx

theorem exists_mem_some {P : Call → Prop} : (∃ call' ∈ some call, P call') ↔ P call := by simp

/-! ## After a command -/

/-- The copies once a new subscriber is in Redis. -/
theorem Copies.adds {a : OpenArgs} {fvs : Reply} {now : Nat} {clients : List CStr} {t : Tid}
    {o : Option Call} {ev : Ev}
    (h : Copies st log (some ⟨.openQueue a, [.redis a.isMember (.integer 1), .redis a.readMeta fvs,
      .redis a.isClient (.integer 0)]⟩) a.msgQueueName clients)
    (hf : (a.addClient now).Fits st)
    (hmiss : a.clientName.bytes ∉ subscribers st a.msgQueueName) :
    Copies ((a.addClient now).exec st).2 (log ++ [.did t o ev])
      (some (Call.did ⟨.openQueue a, [.redis a.isMember (.integer 1), .redis a.readMeta fvs,
        .redis a.isClient (.integer 0)]⟩ (.redis (a.addClient now) ((a.addClient now).exec st).1)))
      a.msgQueueName clients := by
  have hsubs : subscribers ((a.addClient now).exec st).2 a.msgQueueName =
      fields (hset (st.hash (getSubQueueMetaName a.msgQueueName.bytes)) a.clientName.bytes
        (fmtInt now)) := by
    unfold subscribers
    rw [Cmd.hash_exec hf]
    simp only [OpenArgs.addClient, Cmd.onHash, if_true]
    rfl
  have hmem : ∀ f, f ∈ subscribers ((a.addClient now).exec st).2 a.msgQueueName ↔
      f ∈ subscribers st a.msgQueueName ∨ f = a.clientName.bytes := by
    intro f
    rw [hsubs]
    exact mem_fields_hset
  have hnone : ∀ c, ¬ ∃ call' ∈ some (⟨.openQueue a, [.redis a.isMember (.integer 1),
      .redis a.readMeta fvs, .redis a.isClient (.integer 0)]⟩ : Call),
      Adds a.msgQueueName c call' := by
    intro c
    rw [exists_mem_some]
    exact fun hadds => by cases hadds
  have hadds : ∀ c, Adds a.msgQueueName c (Call.did ⟨.openQueue a, [.redis a.isMember (.integer 1),
      .redis a.readMeta fvs, .redis a.isClient (.integer 0)]⟩
      (.redis (a.addClient now) ((a.addClient now).exec st).1)) ↔ c = a.clientName := by
    intro c
    constructor
    · exact fun hadds => hadds.args.2.symm
    · rintro rfl
      exact .mk a fvs now _ rfl rfl
  have hstored : ∀ c : CStr, c.bytes ∈ subscribers st a.msgQueueName ↔ c ∈ clients := by
    intro c
    rw [h.stored]
    exact or_iff_left (hnone c)
  refine ⟨h.nodup, ?_, fun f hf => ?_, fun c => ?_, fun c => ?_, fun c hc => ?_⟩
  · rw [hsubs]
    exact nodup_fields_hset _ _ h.distinct
  · rcases (hmem f).mp hf with hf | rfl
    · exact h.text f hf
    · exact ⟨a.clientName, rfl⟩
  · rw [hmem, hstored, exists_mem_some, hadds, CStr.bytes_inj]
  · rw [subscribed_did, h.subscribed, exists_mem_some, exists_mem_some, enters_redis]
  · rw [exists_mem_some, hadds] at hc
    subst hc
    exact fun hmem => hmiss ((hstored _).mpr hmem)

/-- The command leaves this queue alone. -/
theorem Place.redis {c : Cmd} {r : Reply} {t : Tid} {o : Option Call} {ev : Ev}
    (h : Place st m log (some call) q) (hex : Exec call c)
    (hname : q.bytes ∈ st'.members allQueueName ↔ q.bytes ∈ st.members allQueueName)
    (hsubs : subscribers st' q = subscribers st q) (htypes : ∀ ty, Typed st q ty → Typed st' q ty)
    (hadds : ∀ cl, ¬ Adds q cl (call.did (.redis c r))) :
    Place st' m (log ++ [.did t o ev]) (some (call.did (.redis c r))) q := by
  refine h.keep hname hsubs htypes rfl (fun cl => subscribed_did) (fun _ hcr => ?_)
    (fun cl => ?_) (fun cl => ?_)
  · rw [exists_mem_some] at hcr ⊢
    exact hcr.exec hex r
  · rw [exists_mem_some, exists_mem_some]
    exact iff_of_false (hadds cl) fun hold => hold.not_exec hex
  · rw [exists_mem_some, exists_mem_some]
    exact enters_redis

/-- The call has added the name of a queue that it creates. -/
theorem Agreed.addName {a : OpenArgs} (hc : a.Creates) {t : Tid} {o : Option Call}
    (h : Agreed st m log (some ⟨.openQueue a, [.redis a.isMember (.integer 0)]⟩))
    (hf : a.addName.Fits st) :
    Agreed (a.addName.exec st).2 m (log ++ [.did t o (.redis a.addName (a.addName.exec st).1)])
      (some (Call.did ⟨.openQueue a, [.redis a.isMember (.integer 0)]⟩
        (.redis a.addName (a.addName.exec st).1))) := by
  have hex := Exec.addName a hc
  have hhash : ∀ k, (a.addName.exec st).2.hash k = st.hash k := Cmd.hash_exec hf
  have hnames : ∀ n, n ∈ (a.addName.exec st).2.members allQueueName ↔
      n ∈ st.members allQueueName ∨ n = a.msgQueueName.bytes := by
    intro n
    rw [Cmd.members_exec hf]
    simp only [OpenArgs.addName, Cmd.onMembers, if_true]
    exact mem_sadd
  have hsubs : ∀ q, subscribers (a.addName.exec st).2 q = subscribers st q := fun q => by
    unfold subscribers
    rw [hhash]
  obtain ⟨hg, hs⟩ := grows_of_same h.stored hhash fun n hn => (hnames n).mpr (.inl hn)
  refine ⟨hs, fun n hn => ?_, fun q => ?_, fun call hcall => ?_, h.delivered.did t o _⟩
  · rcases (hnames n).mp hn with hn | rfl
    · exact h.names n hn
    · exact ⟨a.msgQueueName, rfl⟩
  · by_cases hq : q = a.msgQueueName
    · subst hq
      cases h.place a.msgQueueName with
      | absent hn hc hsub hl =>
        refine .creating (exists_mem_some.mpr (.named a _ rfl)) hc ((hsubs _).trans hsub) ?_
        exact fun cl hsub => hl cl (subscribed_did.mp hsub)
      | creating hcr hc hsub hl =>
        rw [exists_mem_some] at hcr
        cases hcr
      | cached option clients hn hc ht hcopies =>
        exact absurd ((h.sound _ rfl).fresh a .nil (.inl rfl)) ht.ne_nil
    · refine (h.place q).redis hex ?_ (hsubs q) (hg.types q) fun cl =>
        not_adds_redis fun _ _ heq => by cases heq
      rw [hnames]
      exact or_iff_left fun heq => hq (CStr.bytes_inj.mp heq)
  · cases hcall
    exact h.sound_redis hex hf hg

/-- The call has written a new subscriber to Redis. -/
theorem Agreed.addClient {a : OpenArgs} {fvs : Reply} {now : Nat} (hfi : a.Finds fvs)
    (hp : a.msgType ≠ PEER2PEER) {t : Tid} {o : Option Call}
    (h : Agreed st m log (some ⟨.openQueue a, [.redis a.isMember (.integer 1),
      .redis a.readMeta fvs, .redis a.isClient (.integer 0)]⟩))
    (hf : (a.addClient now).Fits st) :
    Agreed ((a.addClient now).exec st).2 m
      (log ++ [.did t o (.redis (a.addClient now) ((a.addClient now).exec st).1)])
      (some (Call.did ⟨.openQueue a, [.redis a.isMember (.integer 1), .redis a.readMeta fvs,
        .redis a.isClient (.integer 0)]⟩
        (.redis (a.addClient now) ((a.addClient now).exec st).1))) := by
  have hex := Exec.addClient a fvs hfi hp now
  have hsound := h.sound _ rfl
  obtain ⟨-, queue, hval, hty⟩ := hfi
  have htyped : Typed st a.msgQueueName a.msgType :=
    hty ▸ (hsound.knows (.redis a.readMeta fvs) (by simp) _ rfl _ _ hval).2
  obtain ⟨hg, hs⟩ := grows_addClient h.stored hf htyped
  have hnames : ((a.addClient now).exec st).2.members allQueueName = st.members allQueueName :=
    Cmd.members_exec hf _
  refine ⟨hs, ?_, fun q => ?_, fun call hcall => ?_, h.delivered.did t o _⟩
  · rw [hnames]
    exact h.names
  · by_cases hq : q = a.msgQueueName
    · subst hq
      obtain ⟨option, clients, hc⟩ := h.cached_of_isMember (by simp)
      obtain ⟨hn, ht, hcopies⟩ := h.of_cache hc
      refine .cached option clients (by rw [hnames]; exact hn) hc (hg.types _ _ ht) fun hty' => ?_
      exact (hcopies hty').adds hf (hsound.missing _ _ (.mk a fvs rfl rfl))
    · have hkey : getSubQueueMetaName a.msgQueueName.bytes ≠ getSubQueueMetaName q.bytes :=
        fun hk => hq (CStr.bytes_inj.mp (getSubQueueMetaName_injective hk)).symm
      have hsubs : subscribers ((a.addClient now).exec st).2 q = subscribers st q := by
        unfold subscribers
        rw [Cmd.hash_exec hf]
        simp only [OpenArgs.addClient, Cmd.onHash, if_neg hkey]
      exact (h.place q).redis hex (by rw [hnames]) hsubs (hg.types q) fun cl hadds =>
        hq hadds.args.1.symm
  · cases hcall
    exact h.sound_redis hex hf hg

theorem Agreed.redis {c : Cmd} (h : Agreed st m log (some call)) (hex : Exec call c)
    (hf : c.Fits st) (t : Tid) (o : Option Call) :
    Agreed (c.exec st).2 m (log ++ [.did t o (.redis c (c.exec st).1)])
      (some (call.did (.redis c (c.exec st).1))) := by
  rcases h.exec_cases hex hf with
    ⟨hkeep, hs, hne⟩ | ⟨a, rfl, rfl, hc⟩ | ⟨a, fvs, now, rfl, hfi, hp, rfl⟩
  · refine ⟨hs, ?_, fun q => ?_, fun call' hcall' => ?_, h.delivered.did t o _⟩
    · rw [hkeep.names]
      exact h.names
    · exact (h.place q).redis hex (by rw [hkeep.names]) (hkeep.subs q) (hkeep.types q) fun cl =>
        not_adds_redis hne
    · cases hcall'
      exact h.sound_redis hex hf hkeep.grows
  · exact h.addName hc hf
  · exact h.addClient hfi hp hf

end

end Domq.Mq

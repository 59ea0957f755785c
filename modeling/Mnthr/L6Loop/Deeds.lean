import Mnthr.L3Micro.Objects
import Mnthr.L5Runs.Interrupts
import Mnthr.L6Loop.Phases
import Mnthr.L6Loop.Views

/-!
# The events of the threads, as the backend sees them

`agrees_step`: an event of the threads that is no call of the backend is a run
of the backend. Its queue changes with the interrupts only; whoever waits for a
descriptor goes on to do so, and his return code changes on both sides alike.
-/
namespace Mnthr
open St

/-! ## Events of the scheduler -/

section
variable {D : KevBuild} {a : Act} {e : Event} {s s' u v : St} {ws : Ptr → Option KevWait}
  {k k' k1 : KevSt} {c t : Ptr}

/-- The event is one of a thread, or of code outside the loop. -/
def Event.ofThreads : Event → Bool
  | .next => false
  | e => !e.ofBackend

/-- Only the backend suspends a thread in a wait for a descriptor. -/
theorem suspends_elsewhere {kk : Call} (he : e.ofBackend = false) (hk : s.suspends e = some kk) :
    kk.coState.elsewhere := by
  unfold suspends at hk
  split at hk
  all_goals first
    | (cases hk; first | rfl | cases he)
    | (split at hk <;> cases hk; rfl)
    | (obtain ⟨o, -, rfl⟩ := Option.map_eq_some_iff.1 hk; rfl)
    | skip
  · obtain ⟨hc, hl⟩ := Option.filter_eq_some_iff.1 hk
    cases kk <;> simp_all [Call.loops, Call.coState, CoState.elsewhere]
  · cases hk

theorem elsewhere_unpolled {st : CoState} (h : st.elsewhere) : st.polling = false := by
  cases st <;> simp_all [CoState.elsewhere, CoState.polling]

theorem plain_of_may (he : e.ofThreads) (hb : e.eintr = false) (hi : s.interrupts e = [])
    (hx : ∀ x v b, e ≠ .block (.setInterruptAndJoinWithTimeout x v) b) (ha : May s e a) :
    a.plain True := by
  have hbk : e.ofBackend = false := by cases e <;> simp_all [Event.ofThreads]
  cases a with
  | enterLib c st =>
    obtain ⟨kk, hk, rfl⟩ := Option.map_eq_some_iff.1 ha
    exact elsewhere_unpolled (suspends_elsewhere hbk hk)
  | expire c d => obtain ⟨x, v, b, rfl⟩ := ha; exact absurd rfl (hx x v b)
  | yield c kk b => exact ⟨trivial, ha.1.trans hb, suspends_elsewhere hbk ha.2.1⟩
  | sleepYield c d kk b dormant => exact ⟨ha.1.trans hb, suspends_elsewhere hbk ha.2.1⟩
  | interrupt t =>
    have ht : t ∈ s.interrupts e := ha
    rw [hi] at ht
    cases ht
  | resumeFast t => cases ha; cases hbk
  | enter c poll | discard c poll =>
    cases poll with
    | false => rw [ha.1] at he; cases he
    | true => obtain ⟨rc, rfl, -⟩ := ha; cases hbk
  | quit c => rw [ha.1] at hb; cases hb
  | _ => trivial

/-- Nobody else sets a thread for resume that waits for a descriptor. -/
def Unwoken (ws : Ptr → Option KevWait) (s : St) (e : Event) : Prop :=
  ∀ t ∈ s.starts e ++ (s.wakes e).map Prod.snd, ws t = none

instance (ws : Ptr → Option KevWait) (s : St) (e : Event) : Decidable (Unwoken ws s e) := by
  unfold Unwoken; infer_instance

/-- What a call that stores no return code may clear it in has no thread. -/
theorem rcWrites_quiet (hS : SleepInv s) (hst : s.stores e = false) (ht : t ∈ s.rcWrites e) :
    (s.ctx t).f = none := by
  unfold rcWrites at ht
  split at ht
  · cases hst
  · cases hst
  · cases hst
  · cases hst
  · have := (List.mem_filter.1 (List.mem_filter.1 ht).1).2
    exact hS.dead t ((of_decide_eq_true this).imp id And.left)
  · cases ht

/-- An event that interrupts nobody, and leaves the return codes of the waiting
threads alone or clears them. -/
theorem pictures_calls (hI : Inv s) (hS : SleepInv s) (hc : Calm s e)
    (hs : s.step D.toDiag e = some s') (he : e.ofThreads) (hb : e.eintr = false)
    (hi : s.interrupts e = [])
    (hx : ∀ x v b, e ≠ .block (.setInterruptAndJoinWithTimeout x v) b) (hu : Unwoken ws s e)
    (hz : ∀ t, ws t ≠ none → t ∉ s.rcWrites e ∧
      ((s'.ctx t).rc = (s.ctx t).rc ∨ (s'.ctx t).rc = 0))
    (hw : Waits s ws) (h : Pictures True s ws k) :
    ∃ k', Quietly D ws k k' ∧ Pictures True s' ws k' ∧ Waits s' ws ∧
      ∀ t, ws t ≠ none → (s'.ctx t).rc = (s.ctx t).rc := by
  have alive {u : St} (hIu : Inv u) (hw : Waits u ws) {t : Ptr} (ht : ws t ≠ none) :
      (u.ctx t).f ≠ none := hIu.live t (hw.away hIu ht).1
  -- a waiting thread keeps its return code, or gets another than 0
  have kept : ∀ {a u v}, Inv u → Waits u ws → a.plain True → Micro D.toDiag a u v →
      (∀ t, ws t ≠ none → a ≠ .create t ∧ ∀ n, a = .rc t n → n ≠ 0) → ∀ t, ws t ≠ none →
      (u.ctx t).rc = (s.ctx t).rc ∨ (u.ctx t).rc ≠ 0 →
      (v.ctx t).rc = (s.ctx t).rc ∨ (v.ctx t).rc ≠ 0 := by
    intro a u v hIu hwu hp hm hn t ht hrc
    rcases micro_rc (x := t) hm with h1 | ⟨n, rfl, h1⟩ | ⟨rfl, -⟩ | rfl | rfl
    · rwa [h1]
    · rw [h1]; exact .inr ((hn t ht).2 n rfl)
    · cases hp
    · exact absurd rfl (hn t ht).1
    · cases hm with
      | drop hr hf => exact absurd hf (alive hIu hwu ht)
  refine (calm_chain
    (I := fun u => ∃ k', Quietly D ws k k' ∧ Pictures True u ws k' ∧ Waits u ws ∧
      ∀ t, ws t ≠ none → (u.ctx t).rc = (s.ctx t).rc ∨ (u.ctx t).rc ≠ 0) hI hS hc hs
    (fun s1 hb => ?_) fun a u v ha hm hcalm hIu hSu hu => ?_).2.imp fun k' hk => ?_
  · cases hb with
    | same => exact ⟨k, .refl k, h, hw, fun _ _ => .inl rfl⟩
    | @create c _ hcr hm =>
      have hne : ∀ t, ws t ≠ none → Act.create c ≠ .create t := fun t ht he => by
        cases he
        exact alive hI hw ht (hS.created hI hm).1
      exact ⟨k, .refl k, pictures_unseen (a := .create c) hI hS trivial trivial hm h,
        waits_micro (E := True) (a := .create c) hI hS hm (.inl trivial) (by simp) hw,
        fun t ht => kept (a := .create c) hI hw trivial hm (fun t ht => ⟨hne t ht, by simp⟩) t ht
          (.inl rfl)⟩
  · obtain ⟨k1, hq1, htr1, hw1, hrc1⟩ := hu
    have hp : a.plain True := plain_of_may he hb hi hx ha
    have hn : ∀ t, ws t ≠ none → a ≠ .create t ∧ ∀ n, a = .rc t n → n ≠ 0 := by
      refine fun t ht => ⟨?_, ?_⟩
      · rintro rfl; cases ha
      · rintro n rfl
        exact ha.resolve_right (hz t ht).1
    obtain ⟨k2, hq2, htr2⟩ := pictures_micro hIu hSu hw1 hcalm hp hm htr1
    refine ⟨k2, hq1.trans hq2, htr2, waits_micro hIu hSu hm (.inl hp)
      (fun t ht => ⟨?_, ?_, (hn t ht).2⟩) hw1, fun t ht => kept hIu hw1 hp hm hn t ht (hrc1 t ht)⟩
    · rintro rfl
      exact ht (hu t (List.mem_append_left _ ha))
    · rintro q rfl
      exact ht (hu t (List.mem_append_right _ (List.mem_map.2 ⟨(q, t), ha, rfl⟩)))
  · obtain ⟨hq, htr, hw', hrc⟩ := hk
    refine ⟨hq, htr, hw', fun t ht => ?_⟩
    exact (hz t ht).2.elim id fun h1 => (hrc t ht).resolve_right (not_not.2 h1)

/-- What a thread does on its own. -/
def Act.own : Act → Prop
  | .env | .append .. | .removeMe .. => True
  | .enterLib _ st => st.polling = false
  | .yield _ k b => b = false ∧ k.coState.elsewhere
  | .sleepYield _ d k b _ =>
    b = false ∧ k.coState.elsewhere ∧ d ≠ SLEEP_UNDEFINED ∧ k.coState.queueable
  | _ => False

theorem own_plain (h : a.own) : a.plain True ∧ ∀ u, a.calm u := by
  cases a with
  | env | append | removeMe => exact ⟨trivial, fun _ => trivial⟩
  | enterLib => exact ⟨h, fun _ => trivial⟩
  | yield => exact ⟨⟨trivial, h⟩, fun _ => trivial⟩
  | sleepYield => exact ⟨⟨h.1, h.2.1⟩, fun _ => h.2.2⟩
  | _ => cases h

theorem pictures_own (hI : Inv s) (hS : SleepInv s) (hm : Steps (Micro D.toDiag) Act.own s s')
    (hw : Waits s ws) (h : Pictures True s ws k) :
    ∃ k', Quietly D ws k k' ∧ Pictures True s' ws k' ∧ Waits s' ws ∧
      ∀ t, (s'.ctx t).rc = (s.ctx t).rc := by
  refine (hm.inv (I := fun u => (Inv u ∧ SleepInv u) ∧ ∃ k', Quietly D ws k k' ∧
    Pictures True u ws k' ∧ Waits u ws ∧ ∀ t, (u.ctx t).rc = (s.ctx t).rc) ?_
    ⟨⟨hI, hS⟩, k, .refl k, h, hw, fun _ => rfl⟩).2
  rintro a u v ha hm ⟨⟨hIu, hSu⟩, k1, hq1, htr1, hw1, hrc⟩
  obtain ⟨hp, hcalm⟩ := own_plain ha
  obtain ⟨k2, hq2, htr2⟩ := pictures_micro hIu hSu hw1 (hcalm u) hp hm htr1
  refine ⟨⟨inv_micro hIu hm, (sinv_micro hIu hSu (hcalm u) hm).1⟩, k2, hq1.trans hq2, htr2,
    waits_micro hIu hSu hm (.inl hp) (fun t _ => ?_) hw1, fun t => ?_⟩
  · refine ⟨?_, fun q => ?_, fun n => ?_⟩ <;> rintro rfl <;> cases ha
  · rw [← hrc t]
    rcases micro_rc (x := t) hm with h1 | ⟨n, rfl, -⟩ | ⟨rfl, -⟩ | rfl | rfl
    · exact h1
    all_goals cases ha

/-! ## Interrupts -/

/-- `mnthr_set_interrupt_and_join_with_timeout` stores the key twice. -/
theorem sleepUntil_expired (d' : Nat) {d : Nat} {kk : Call} {b : Bool} (hme : s.me = some c)
    (hc : c ∉ s.sleepq.all) :
    (s.setCtx c { s.ctx c with expireTicks := d' }).sleepUntil d kk b = s.sleepUntil d kk b := by
  simp [sleepUntil, sleepqRemove, sleepqEnqueue, setCtx, hme, Sleepq.remove_of_notMem hc]

theorem interruptAndJoin_own {x : Ptr} {s1 : St} (hpc : s1.pc = .user c) (hme : s1.me = some c)
    (h : ((s1.setState .joinInterrupted).bind fun s2 =>
      s2.joinWaitq (.ctx x) (.interruptJoin x) false) = some s') :
    Steps (Micro D.toDiag) Act.own s1 s' := by
  rw [setState_eq hme, Option.bind_some, joinWaitq,
    appendMe_eq (s := s1.inLib c .joinInterrupted) hme, Option.bind_some] at h
  have hst : ((s1.inLib c .joinInterrupted).ctx c).state = .joinInterrupted := by
    simp [inLib, setCtx]
  have hy : Micro D.toDiag (.yield c (.interruptJoin x) false)
      ((s1.inLib c .joinInterrupted).appended (.ctx x) c) s' :=
    yieldAs_micro rfl hme (append_suspends rfl rfl hst) rfl h
  have hl : Act.own (.enterLib c .joinInterrupted) := rfl
  have ha : Act.own (.append c (.ctx x)) := trivial
  have hp : Act.own (.yield c (.interruptJoin x) false) := ⟨rfl, rfl⟩
  exact .head hl (.enterLib (.inl hpc) rfl) (.head ha (.append rfl _) (.one hp hy))

theorem interruptAndJoinTimeout_own {x : Ptr} {d : Nat} {s1 : St} (hpc : s1.pc = .user c)
    (hme : s1.me = some c) (hc : c ∉ s1.sleepq.all) (hcx : c ≠ x)
    (hx : (s1.ctx x).state.resumable) (hd : d ≠ SLEEP_UNDEFINED)
    (h : ((s1.setState .joinInterrupted).bind fun s2 => s2.me.bind fun t =>
      ((s2.setCtx t { s2.ctx t with expireTicks := d }).appendMe (.ctx x)).bind fun s4 =>
        s4.sleepUntil d (.interruptJoinTimeout x (s4.ctx x).id) false) = some s') :
    Steps (Micro D.toDiag) Act.own s1 s' := by
  have hme1 : (s1.inLib c .joinInterrupted).me = some c := hme
  rw [setState_eq hme, Option.bind_some, hme1, Option.bind_some,
    appendMe_eq (s := (s1.inLib c .joinInterrupted).setCtx c _) hme1, Option.bind_some] at h
  obtain ⟨s2, hs2⟩ : ∃ s2, s2 = (s1.inLib c .joinInterrupted).appended (.ctx x) c := ⟨_, rfl⟩
  have h' : s2.sleepUntil d (.interruptJoinTimeout x (s2.ctx x).id) false = some s' := by
    rw [← h, ← sleepUntil_expired d (s := s2) (by rw [hs2]; exact hme) (by rw [hs2]; exact hc),
      hs2]
    simp [appended, setCtx, hcx.symm]
  have hst : ((s1.inLib c .joinInterrupted).ctx c).state = .joinInterrupted := by
    simp [inLib, setCtx]
  have hk : Suspends s2 c (.interruptJoinTimeout x (s2.ctx x).id) := by
    rw [hs2]; exact append_suspends rfl rfl hst
  have hdx : (s2.ctx x).state ≠ .dormant := by
    rw [hs2]
    simpa [appended, inLib, setCtx, hcx.symm] using (resumable_ne hx).1
  have hy : Micro D.toDiag (.sleepYield c d (.interruptJoinTimeout x (s2.ctx x).id) false false)
      s2 s' := by
    refine sleepUntil_micro (by rw [hs2]; rfl) (by rw [hs2]; exact hme) hk ?_ h'
    rintro y n ⟨⟩
    exact ⟨rfl, fun _ => hdx⟩
  have hl : Act.own (.enterLib c .joinInterrupted) := rfl
  have ha : Act.own (.append c (.ctx x)) := trivial
  rw [hs2] at hy
  exact .head hl (.enterLib (.inl hpc) rfl)
    (.head ha (.append rfl _) (.one (show Act.own (.sleepYield c d _ false false) from
      ⟨rfl, rfl, hd, rfl⟩) hy))

/-- The way out of a timed wait whose target is still there. -/
theorem timeout_own {kk : Call} {x : Ptr} {n v : Int} (hpc : s.pc = .post c kk)
    (hme : s.me = some c) (ht : kk.target = some (x, n)) (hx : ¬ s.gone x n)
    (h : (s.takenOff (.ctx x) c).complete v = some s') : Steps (Micro D.toDiag) Act.own s s' := by
  obtain ⟨d, hd, rfl⟩ := Option.map_eq_some_iff.1 h
  obtain rfl : d = c := Option.some.inj (hd.symm.trans hme)
  have hr : Act.own (.removeMe d (.ctx x)) := trivial
  have he : Act.own .env := trivial
  exact .head hr (.removeMe hpc ht hx) (.one he (.env s.objs s.now _))

/-- `co.rc` of the target of a timed wait that was in vain. -/
def St.timedOut (D : Diag) (s : St) (x : Ptr) : St :=
  s.setCtx x { s.ctx x with rc := D.CO_RC_TIMEDOUT }

theorem notMe_eq {x y : Ptr} (h : x ∈ s.notMe y) : y = x ∧ s.notMe y = [x] := by
  unfold notMe at h ⊢
  split at h
  · cases h
  · rename_i hne
    obtain rfl := List.mem_singleton.1 h
    exact ⟨rfl, if_neg hne⟩

theorem setInterrupt_inv {x : Ptr} (hI : Inv s) (hS : SleepInv s) (hx : x ∉ s.pending)
    (h : s.setInterrupt D.toDiag x = some s') : Inv s' ∧ SleepInv s' := by
  unfold setInterrupt at h
  split at h
  · cases h
  · rename_i hne
    split at h
    · cases h; exact ⟨hI, hS⟩
    · rename_i hf
      cases h
      have hm := Micro.interrupt (D := D.toDiag) hne hf
      exact ⟨inv_micro hI hm, (sinv_micro (a := .interrupt x) hI hS hx hm).1⟩

/-- An event that interrupts a thread does it first, and goes on on its own. -/
theorem interrupts_steps {x : Ptr} (hI : Inv s) (hS : SleepInv s) (hc : Calm s e)
    (hs : s.step D.toDiag e = some s') (hb : e.eintr = false) (hi : x ∈ s.interrupts e) :
    s.interrupts e = [x] ∧ ∃ s1 s2, s.setInterrupt D.toDiag x = some s1 ∧
      (s2 = s1 ∨ (s1.ctx x).state ≠ .dormant ∧ s2 = s1.timedOut D.toDiag x) ∧
      Steps (Micro D.toDiag) Act.own s2 s' := by
  have hxp : x ∉ s.pending := hc.1 x (List.mem_append_left _ (List.mem_append_right _ hi))
  have hdl := hc.2.1
  unfold interrupts at hi ⊢
  split at hi
  · -- mnthr_set_interrupt
    obtain ⟨rfl, heq⟩ := notMe_eq hi
    simp only [step] at hs
    split at hs
    · simp only [callOp] at hs
      split at hs
      · exact ⟨heq, s', s', hs, .inl rfl, .refl s'⟩
      · cases hs
    · cases hs
  · -- mnthr_set_interrupt_and_join
    split at hi
    · rename_i y b hr
      obtain ⟨rfl, heq⟩ := notMe_eq hi
      obtain rfl : b = false := hb
      simp only [step] at hs
      split at hs
      · rename_i c hpc
        split at hs
        · simp only [block] at hs
          split at hs
          · rw [setInterruptAndJoin, if_pos hr] at hs
            obtain ⟨s1, h1, h2⟩ := Option.bind_eq_some_iff.1 hs
            obtain ⟨hpc1, hme1, -, -⟩ := setInterrupt_frame (hI.me c (by rw [hpc]; rfl)) h1
            exact ⟨(if_pos hr).trans heq, s1, s1, h1, .inl rfl,
              interruptAndJoin_own (hpc1.trans hpc) hme1 h2⟩
          · cases hs
        · cases hs
      · cases hs
    · cases hi
  · split at hi
    · rename_i y v b hr
      obtain ⟨rfl, heq⟩ := notMe_eq hi
      obtain rfl : b = false := hb
      simp only [step] at hs
      split at hs
      · rename_i c hpc
        split at hs
        · simp only [block] at hs
          split at hs
          · rw [setInterruptAndJoinWithTimeout, if_pos hr] at hs
            obtain ⟨s1, h1, h2⟩ := Option.bind_eq_some_iff.1 hs
            obtain ⟨hpc1, hme1, hcx, -, hres⟩ := setInterrupt_frame (hI.me c (by rw [hpc]; rfl)) h1
            have hS1 := (setInterrupt_inv hI hS hxp h1).2
            refine ⟨(if_pos hr).trans heq, s1, s1, h1, .inl rfl,
              interruptAndJoinTimeout_own (hpc1.trans hpc) hme1 (hS1.running c (by rw [hpc1, hpc]; rfl)).1 hcx (hres hr) ?_ h2⟩
            exact fun h0 => hdl (by rw [← h0]; rfl)
          · cases hs
        · cases hs
      · cases hs
    · cases hi
  · -- the end of mnthr_wait_for
    split at hi
    · rename_i b _ c y n hpc
      split at hi
      · cases hi
      · rename_i hg
        obtain ⟨rfl, heq⟩ := notMe_eq hi
        simp only [step, hpc] at hs
        split at hs
        · simp only [cont, waitForEnd, if_neg hg] at hs
          split at hs
          · cases hs
          · split at hs
            · rename_i hr
              have hme := hI.me c (by rw [hpc]; rfl)
              rw [removeMe_eq hme, Option.bind_some, setInterrupt_takenOff] at hs
              obtain ⟨s2, h2, h3⟩ := Option.bind_eq_some_iff.1 hs
              obtain ⟨s1, h1, rfl⟩ := Option.map_eq_some_iff.1 h2
              obtain ⟨hpc1, hme1, hcx, hid, hres⟩ := setInterrupt_frame hme h1
              have hd : (s1.ctx y).state ≠ .dormant := (resumable_ne (hres hr)).1
              have hg1 : ¬ (s1.timedOut D.toDiag y).gone y n := by
                simpa [timedOut, gone, setCtx, hid, hd] using (not_or.1 hg).1
              exact ⟨(if_neg hg).trans heq, s1, _, h1, .inr ⟨hd, rfl⟩,
                timeout_own (hpc1.trans hpc) hme1 rfl hg1 h3⟩
            · cases hs
        · cases hs
    · cases hi
  · cases hi

/-! ## Return codes -/

/-- The target that a timed join gives up. -/
def St.givesUp (s : St) : Event → Option Ptr
  | .cont _ =>
    match s.pc.call with
    | some (.interruptJoinTimeout x n) => if s.gone x n then none else some x
    | _ => none
  | _ => none

/-- Who stores return codes: the caller its own, a signal that of its
subscriber, an interrupt, and a timed wait that was in vain. -/
theorem stored_rc (hI : Inv s) (hS : SleepInv s) (hs : s.step D.toDiag e = some s')
    (he : e.ofThreads) (hi : s.interrupts e = []) (hg : s.givesUp e = none)
    (hme : s.me ≠ some t) (hst : (s.ctx t).state ≠ .signalSubscribe) (hf : (s.ctx t).f ≠ none) :
    t ∉ s.rcWrites e ∧ ((s'.ctx t).rc = (s.ctx t).rc ∨ (s'.ctx t).rc = 0) := by
  have hsub : ∀ g, t ∉ s.subscriber g := fun g hm =>
    hst (by simpa using (List.mem_filter.1 hm).2)
  by_cases hstores : s.stores e = false
  · exact ⟨fun hm => hf (rcWrites_quiet hS hstores hm), (step_effect hI.base hs).rc hstores t⟩
  -- the subscriber of a signal
  have signal : ∀ {o : Ptr} {v : Int} {u : St}, (s.ctx o).state = .signalSubscribe →
      (s.setCtx o { s.ctx o with rc := v }).setResume o = some u →
      (u.ctx t).rc = (s.ctx t).rc ∨ (u.ctx t).rc = 0 := by
    intro o v u ho h
    have hto : t ≠ o := fun he => hst (he ▸ ho)
    simpa [setCtx, hto] using (Inert.setResume h).rc t
  have itself : ∀ {y : Ptr} {u : St}, s.notMe y = [] → s.setInterrupt D.toDiag y = some u → False := by
    intro y u h0 h
    have := mem_notMe h
    rw [h0] at this
    cases this
  unfold stores at hstores
  split at hstores
  · -- mnthr_set_interrupt
    simp only [step] at hs
    split at hs
    · simp only [callOp] at hs
      split at hs
      · exact (itself hi hs).elim
      · cases hs
    · cases hs
  · -- mnthr_set_retval
    refine ⟨by simpa [rcWrites] using hme, ?_⟩
    simp only [step] at hs
    split at hs
    · obtain ⟨c, hc, rfl⟩ := Option.map_eq_some_iff.1 hs
      have htc : t ≠ c := fun he => hme (he ▸ hc)
      exact .inl (by simp [setCtx, returns, htc])
    · cases hs
  · -- mnthr_signal_error
    refine ⟨hsub _, ?_⟩
    simp only [step] at hs
    split at hs
    · simp only [callOp, signalError] at hs
      split at hs
      · cases hs; exact .inl rfl
      · split at hs
        · cases hs
        · split at hs
          · exact signal ‹_› hs
          · cases hs; exact .inl rfl
    · cases hs
  · cases he
  · -- mnthr_set_interrupt_and_join
    refine ⟨by simp [rcWrites], ?_⟩
    simp only [step] at hs
    split at hs
    · split at hs
      · simp only [block] at hs
        split at hs
        · unfold setInterruptAndJoin at hs
          split at hs
          · rename_i hr
            rw [interrupts, if_pos hr] at hi
            obtain ⟨s1, h1, -⟩ := Option.bind_eq_some_iff.1 hs
            exact (itself hi h1).elim
          · cases hs; exact .inl rfl
        · cases hs
      · cases hs
    · cases hs
  · refine ⟨by simp [rcWrites], ?_⟩
    simp only [step] at hs
    split at hs
    · split at hs
      · simp only [block] at hs
        split at hs
        · unfold setInterruptAndJoinWithTimeout at hs
          split at hs
          · rename_i hr
            rw [interrupts, if_pos hr] at hi
            obtain ⟨s1, h1, -⟩ := Option.bind_eq_some_iff.1 hs
            exact (itself hi h1).elim
          · cases hs; exact .inl rfl
        · cases hs
      · cases hs
    · cases hs
  · -- mnthr_signal_error_and_join
    refine ⟨hsub _, ?_⟩
    simp only [step] at hs
    split at hs
    · split at hs
      · simp only [block, signalErrorAndJoin] at hs
        split at hs
        · cases hs; exact .inl rfl
        · split at hs
          · cases hs
          · split at hs
            · obtain ⟨s1, h1, h2⟩ := Option.bind_eq_some_iff.1 hs
              obtain ⟨s2, h3, h4⟩ := Option.bind_eq_some_iff.1 h2
              rcases ((Inert.setState h3).trans (.joinWaitq h4)).rc t with h5 | h5
              · rw [h5]; exact signal ‹_› h1
              · exact .inr h5
            · cases hs; exact .inl rfl
      · cases hs
    · cases hs
  · cases he
  · refine ⟨by simp [rcWrites], ?_⟩
    simp only [step] at hs
    split at hs
    · rename_i c kk hpc
      split at hs
      · cases kk with
        | waitFor x n =>
          simp only [cont, waitForEnd] at hs
          split at hs
          · cases hs
          · split at hs
            · exact (Inert.complete hs).rc t
            · rename_i hgo
              split at hs
              · rw [interrupts, hpc] at hi
                simp only [if_neg hgo] at hi
                obtain ⟨s1, h1, h2⟩ := Option.bind_eq_some_iff.1 hs
                obtain ⟨s2, h3, -⟩ := Option.bind_eq_some_iff.1 h2
                rw [removeMe_eq (hI.me c (by rw [hpc]; rfl))] at h1
                cases h1
                rw [setInterrupt_takenOff] at h3
                obtain ⟨s3, h3, -⟩ := Option.map_eq_some_iff.1 h3
                exact (itself hi h3).elim
              · cases hs
        | interruptJoinTimeout x n =>
          simp only [cont, interruptJoinTimeoutEnd] at hs
          split at hs
          · cases hs
          · split at hs
            · exact (Inert.complete hs).rc t
            · rename_i hgo
              simp [givesUp, hpc, Pc.call, hgo] at hg
        | _ => simp [hpc, Pc.call] at hstores
      · cases hs
    · cases hs
  · exact absurd rfl hstores

/-! ## Who runs -/

/-- `me` is the running thread, as long as no switch is taken for an interrupted
one. -/
theorem caller_micro (ha : May s e a) (hb : e.eintr = false) (hm : Micro D.toDiag a u v)
    (h : u.me = u.pc.runs) : v.me = v.pc.runs := by
  cases hm with
  | enterLib hpc =>
    rcases hpc with hpc | ⟨k, hpc, -⟩ <;> simpa [inLib, setCtx, hpc, Pc.runs] using h
  | yield hpc hk ht b | sleepYield hpc hk ht d b =>
    have hb0 : b = false := ha.1.trans hb
    simp [parked, Pc.runs, hb0]
  | removeMe hpc => simpa [takenOff, hpc, Pc.runs] using h
  | complete _ _ hpc => simpa [hpc, Pc.runs] using h
  | wake => unfold woken; split <;> exact h
  | quit => rw [ha.1] at hb; cases hb
  | die => rfl
  | discard hpc hp => cases hp <;> exact h
  | enter hpc hp hst hs => rcases enter_cases hs with ⟨-, rfl⟩ | ⟨-, -, rfl⟩ <;> rfl
  | sift hs => obtain ⟨-, -, -, rfl⟩ := sift_cases hs; exact h
  | _ => exact h

theorem caller_step (hI : Inv s) (hs : s.step D.toDiag e = some s') (hb : e.eintr = false)
    (h : s.me = s.pc.runs) : s'.me = s'.pc.runs := by
  obtain ⟨s1, hbegin, hch⟩ := step_micro hI.base hs
  refine hch.inv (I := fun u => u.me = u.pc.runs) (fun a u v ha hm hu => caller_micro ha hb hm hu) ?_
  cases hbegin with
  | same => exact h
  | create hc hm => cases hm <;> exact h

/-- Whoever is resumed runs, under the same condition. -/
theorem resumed_micro (ha : May s e a) (hb : e.eintr = false) (hm : Micro D.toDiag a u v)
    (h : ∀ t, (u.ctx t).state = .resumed → u.pc.runs = some t) (hv : (v.ctx t).state = .resumed) :
    v.pc.runs = some t := by
  rcases state_micro (t := t) hm with ⟨hst, -⟩ | ⟨st, rfl, hst⟩ | ⟨-, -, hst, -⟩ | ⟨_, rfl, -⟩ | hst
  · -- who leaves is suspended or dead
    have hu : (u.ctx t).state = .resumed := hst ▸ hv
    by_contra hr
    have hk : ∀ {k : Call}, Suspends u t k → False := fun hk =>
      (resumable_ne (hk.state ▸ hk.real)).2 hu
    rcases leaves_micro hm (h t hu) hr with ⟨k, b, rfl⟩ | ⟨d, k, b, dormant, rfl⟩ | rfl | rfl
    · cases hm with | yield hpc hs => exact hk hs
    · cases hm with | sleepYield hpc hs => exact hk hs
    · cases hm with | die hpc => simp [buried, setCtx, Ctx.cleared] at hv
    · rw [ha.1] at hb; cases hb
  · rw [hst] at hv
    subst hv
    cases hm with
    | enterLib hpc hst' => cases hst'
  · rw [hv] at hst; cases hst
  · exact enter_runs hm
  · rw [hst] at hv; cases hv

theorem resumed_step (hI : Inv s) (hS : SleepInv s) (hs : s.step D.toDiag e = some s') (hb : e.eintr = false)
    (h : ∀ t, (s.ctx t).state = .resumed → s.pc.runs = some t) :
    ∀ t, (s'.ctx t).state = .resumed → s'.pc.runs = some t := by
  obtain ⟨s1, hbegin, hch⟩ := step_micro hI.base hs
  refine hch.inv (I := fun u => ∀ t, (u.ctx t).state = .resumed → u.pc.runs = some t)
    (fun a u v ha hm hu t => resumed_micro ha hb hm hu) fun t ht => ?_
  cases hbegin with
  | same => exact h t ht
  | @create c _ hcr hm =>
    obtain ⟨hr, -, hst, -⟩ :=
      unseen_micro (t := t) hI hS (show Act.unseen True (.create c) from trivial) hm
    rw [hr]
    by_contra hn
    exact hn (h t (hst hn ▸ ht))

/-! ## Threads -/

/-- A condition on the events of the backend that the silent ones meet. -/
structure Told (C : KevSt → KevEvent → Prop) : Prop where
  silent : ∀ k ke, ke.silent → C k ke
  cleared : ∀ k t, (k.thr t).clears = [] → C k (.interrupt t)

variable {C : KevSt → KevEvent → Prop}

theorem Quietly.follows (hC : Told C) (h : Quietly D ws k k') : Follows (kevStep D) C k k' := by
  obtain ⟨es, h1, h2⟩ := h.run
  exact ⟨es, h2, along_mono (fun k ke hke => hC.silent k ke hke) (along_of_forall h1)⟩

/-- What the backend keeps of the waits agrees. -/
structure Agrees (ws : Ptr → Option KevWait) (s : St) (k : KevSt) : Prop where
  pictures : Pictures True s ws k
  waits : Waits s ws
  rc : ∀ t, ws t ≠ none → (k.thr t).rc = (s.ctx t).rc

theorem Agrees.congr {ws : Ptr → Option KevWait} (h : Agrees ws s k) (ht : k'.thr = k.thr)
    (hm : k'.me = k.me) : Agrees ws s k' := by
  obtain ⟨⟨h1, h2, h3, h4, h5, h6⟩, h7, h8⟩ := h
  refine ⟨⟨hm.trans h1, ?_, ?_, ?_, ?_, ?_⟩, h7, ?_⟩ <;> rw [ht] <;> assumption

/-- What the events of the threads leave alone. -/
structure SparesPdata (ws : Ptr → Option KevWait) (k k' : KevSt) : Prop where
  thr : ∀ t, ws t ≠ none → (k'.thr t).ident = (k.thr t).ident ∧ (k'.thr t).filter = (k.thr t).filter

theorem Quietly.agrees (hq : Quietly D ws k k') (ht : Pictures True s' ws k') (hw : Waits s' ws)
    (hrc : ∀ t, ws t ≠ none → (s'.ctx t).rc = (s.ctx t).rc)
    (h : ∀ t, ws t ≠ none → (k.thr t).rc = (s.ctx t).rc) : Agrees ws s' k' ∧ SparesPdata ws k k' :=
  ⟨⟨ht, hw, fun t hn => ((hq.thr t hn).1.trans (h t hn)).trans (hrc t hn).symm⟩,
    ⟨fun t hn => (hq.thr t hn).2⟩⟩

/-- A timed wait stores a return code in its target. -/
theorem agrees_timedOut {x : Ptr} (h : Agrees ws s k) (hI : Inv s) (hS : SleepInv s)
    (hd : (s.ctx x).state ≠ .dormant) : ∃ k', kevStep D k (.setRc x D.CO_RC_TIMEDOUT) = some k' ∧
      Agrees ws (s.timedOut D.toDiag x) k' ∧ SparesPdata ws k k' ∧ k'.shared = k.shared := by
  have hm : Micro D.toDiag (.rc x D.CO_RC_TIMEDOUT) s (s.timedOut D.toDiag x) :=
    .rc x _ (.inr (.inl hd))
  have hu := pictures_unseen (a := .rc x D.CO_RC_TIMEDOUT) hI hS trivial trivial hm h.pictures
  have hw := waits_micro (E := True) (a := .rc x D.CO_RC_TIMEDOUT) hI hS hm (.inl trivial)
    (fun t _ => ⟨by simp, by simp, fun v hv => by cases hv; exact D.ne_zero 130 3⟩) h.waits
  have hthr : ∀ t, (k.setThr x { k.thr x with rc := D.CO_RC_TIMEDOUT }).thr t =
      { k.thr t with rc := if t = x then D.CO_RC_TIMEDOUT else (k.thr t).rc } := by
    intro t
    by_cases htx : t = x
    · subst htx; simp [KevSt.setThr]
    · simp [KevSt.setThr, htx]
  refine ⟨k.setThr x { k.thr x with rc := D.CO_RC_TIMEDOUT }, by simp [kevStep],
    ⟨⟨hu.me, fun t => ?_, fun t => ?_, fun t => ?_, fun t => ?_, fun t => ?_⟩, hw, fun t ht => ?_⟩,
    ⟨fun t _ => ?_⟩, rfl⟩
  all_goals rw [hthr t]
  · exact hu.live t
  · exact hu.state t
  · exact hu.wait t
  · exact hu.ticks t
  · exact hu.queued t
  · by_cases htx : t = x
    · subst htx; simp [timedOut, setCtx]
    · simpa [timedOut, setCtx, htx] using h.rc t ht
  · exact ⟨rfl, rfl⟩

theorem SparesPdata.trans (h : SparesPdata ws k k1) (h' : SparesPdata ws k1 k') : SparesPdata ws k k' :=
  ⟨fun t ht => ⟨(h'.thr t ht).1.trans (h.thr t ht).1, (h'.thr t ht).2.trans (h.thr t ht).2⟩⟩

theorem agrees_own (h : Agrees ws s k) (hC : Told C) (hI : Inv s) (hS : SleepInv s)
    (hm : Steps (Micro D.toDiag) Act.own s s') :
    ∃ k', Follows (kevStep D) C k k' ∧ Agrees ws s' k' ∧ SparesPdata ws k k' ∧ k'.shared = k.shared := by
  obtain ⟨k', hq, ht, hw, hrc⟩ := pictures_own hI hS hm h.waits h.pictures
  obtain ⟨h1, h2⟩ := hq.agrees ht hw (fun t _ => hrc t) h.rc
  exact ⟨k', hq.follows hC, h1, h2, hq.shared⟩

theorem agrees_interrupt {x : Ptr} (h : Agrees ws s k) (hC : Told C) (hI : Inv s) (hS : SleepInv s)
    (hx : x ∉ s.pending) (hCx : (s.ctx x).f ≠ none → C k (.interrupt x))
    (h1 : s.setInterrupt D.toDiag x = some s') :
    ∃ k', Follows (kevStep D) C k k' ∧ Agrees ws s' k' ∧ SparesPdata ws k k' ∧
      k'.shared = (k.clearEvent x).shared := by
  unfold setInterrupt at h1
  split at h1
  · cases h1
  rename_i hne
  split at h1
  · rename_i hf
    cases h1
    have hd : (s.ctx x).state = .dormant := by
      by_contra hd
      exact hI.live x hd hf
    have hcl : (k.thr x).clears = [] := clears_unpolled (by
      rw [h.pictures.state, seen, if_neg fun hr => hne (hI.me x hr), hd]; rfl)
    refine ⟨k, .refl k, h, ⟨fun _ _ => ⟨rfl, rfl⟩⟩, ?_⟩
    rw [KevSt.clearEvent_shared, hcl]
    simp [KevQueue.discards, KevSt.shared, KevSt.queue]
  · rename_i hf
    cases h1
    have hm := Micro.interrupt (D := D.toDiag) hne hf
    obtain ⟨k1, k', hq, hk1, hstep, hst, htr⟩ :=
      pictures_interrupt h.pictures hI hS h.waits (c := x) hx hm
    have hw := waits_micro (E := True) (a := .interrupt x) hI hS hm (.inr ⟨x, rfl⟩) (by simp) h.waits
    have hCk : C k1 (.interrupt x) := by
      rcases hk1 with rfl | hcl
      · exact hCx hf
      · exact hC.cleared k1 x hcl
    refine ⟨k', (hq.follows hC).trans (.one hCk hstep), ⟨htr, hw, fun t ht => ?_⟩,
      ⟨fun t ht => (hst.thr t ht).2⟩, hst.shared⟩
    rw [(hst.thr t ht).1]
    by_cases htx : t = x
    · subst htx; simp [queueNow, sleepqEnqueue, sleepqRemove, setCtx]
    · rw [if_neg htx, h.rc t ht, (micro_sameFor hm (by simp [Act.subject, Ne.symm htx])).ctx]

theorem agrees_inVain {x : Ptr} (h : Agrees ws s k) (hC : Told C) (hI : Inv s) (hS : SleepInv s)
    (hd : (s.ctx x).state ≠ .dormant)
    (hm : Steps (Micro D.toDiag) Act.own (s.timedOut D.toDiag x) s') :
    ∃ k', Follows (kevStep D) C k k' ∧ Agrees ws s' k' ∧ SparesPdata ws k k' ∧ k'.shared = k.shared := by
  have hrc : Micro D.toDiag (.rc x D.CO_RC_TIMEDOUT) s (s.timedOut D.toDiag x) :=
    .rc x _ (.inr (.inl hd))
  obtain ⟨k1, hk1, ha1, hsp1, hsh1⟩ := agrees_timedOut h hI hS hd
  obtain ⟨k', hf, ha, hsp, hsh⟩ := agrees_own ha1 hC (inv_micro hI hrc)
    (sinv_micro (a := .rc x D.CO_RC_TIMEDOUT) hI hS trivial hrc).1 hm
  exact ⟨k', (Follows.one (hC.silent _ _ rfl) hk1).trans hf, ha, hsp1.trans hsp, hsh.trans hsh1⟩

/-- What is not about a wait for a descriptor: an event of the threads is a run
of the backend, in which its queue changes with the interrupts only. -/
theorem agrees_step (h : Agrees ws s k) (hC : Told C) (hI : Inv s) (hS : SleepInv s)
    (hc : Calm s e) (hs : s.step D.toDiag e = some s') (he : e.ofThreads) (hb : e.eintr = false)
    (hme : s.me = s.pc.runs) (hu : Unwoken ws s e)
    (hCi : ∀ x ∈ s.interrupts e, (s.ctx x).f ≠ none → C k (.interrupt x)) :
    ∃ k', Follows (kevStep D) C k k' ∧ Agrees ws s' k' ∧ SparesPdata ws k k' ∧
      k'.shared = ((s.interrupts e).foldl KevSt.clearEvent k).shared := by
  by_cases hi : s.interrupts e = []
  swap
  · obtain ⟨x, hx⟩ := List.exists_mem_of_ne_nil _ hi
    have hxp : x ∉ s.pending := hc.1 x (List.mem_append_left _ (List.mem_append_right _ hx))
    obtain ⟨hix, s1, s2, h1, h2, hown⟩ := interrupts_steps hI hS hc hs hb hx
    obtain ⟨hI1, hS1⟩ := setInterrupt_inv hI hS hxp h1
    obtain ⟨k1, hf1, ha1, hsp1, hsh1⟩ := agrees_interrupt h hC hI hS hxp (hCi x hx) h1
    rw [hix, List.foldl_cons, List.foldl_nil, ← hsh1]
    rcases h2 with rfl | ⟨hd, rfl⟩
    · obtain ⟨k', hf2, ha2, hsp2, hsh2⟩ := agrees_own ha1 hC hI1 hS1 hown
      exact ⟨k', hf1.trans hf2, ha2, hsp1.trans hsp2, hsh2⟩
    · obtain ⟨k', hf2, ha2, hsp2, hsh2⟩ := agrees_inVain ha1 hC hI1 hS1 hd hown
      exact ⟨k', hf1.trans hf2, ha2, hsp1.trans hsp2, hsh2⟩
  rw [hi, List.foldl_nil]
  by_cases hg : s.givesUp e = none
  swap
  · -- a timed join is given up: the target keeps a return code
    obtain ⟨x, hx⟩ := Option.ne_none_iff_exists'.1 hg
    obtain ⟨c, n, b, rfl, hpc, hgo⟩ : ∃ c n b, e = .cont b ∧
        s.pc = .post c (.interruptJoinTimeout x n) ∧ ¬ s.gone x n := by
      unfold givesUp at hx
      split at hx
      · split at hx
        · rename_i b _ y n hcall
          split at hx
          · cases hx
          · cases hx
            cases hpc : s.pc with
            | post c kk => rw [hpc] at hcall; cases hcall; exact ⟨c, n, b, rfl, rfl, ‹_›⟩
            | _ => rw [hpc] at hcall; cases hcall
        · cases hx
      · cases hx
    have hme' := hI.me c (by rw [hpc]; rfl)
    simp only [step, hpc] at hs
    split at hs
    · simp only [cont, interruptJoinTimeoutEnd, if_neg hgo] at hs
      split at hs
      · cases hs
      · split at hs
        · rw [removeMe_eq hme', Option.bind_some] at hs
          have hgo1 : ¬ (s.timedOut D.toDiag x).gone x n := by
            simpa [timedOut, gone, setCtx] using hgo
          exact agrees_inVain h hC hI hS (not_or.1 hgo).2
            (timeout_own (s := s.timedOut D.toDiag x) hpc hme' rfl hgo1 hs)
        · cases hs
    · cases hs
  by_cases hx : ∃ x v b, e = .block (.setInterruptAndJoinWithTimeout x v) b
  · -- the target has ended, so the call has returned
    obtain ⟨x, v, b, rfl⟩ := hx
    have hown : Steps (Micro D.toDiag) Act.own s s' := by
      simp only [step] at hs
      split at hs
      · split at hs
        · simp only [block] at hs
          split at hs
          · unfold setInterruptAndJoinWithTimeout at hs
            split at hs
            · rename_i hr
              rw [interrupts, if_pos hr] at hi
              obtain ⟨s1, h1, -⟩ := Option.bind_eq_some_iff.1 hs
              have := mem_notMe h1
              rw [hi] at this
              cases this
            · cases hs
              have he : Act.own .env := trivial
              exact .one he (.env s.objs s.now _)
          · cases hs
        · cases hs
      · cases hs
    exact agrees_own h hC hI hS hown
  have hz : ∀ t, ws t ≠ none → t ∉ s.rcWrites e ∧
      ((s'.ctx t).rc = (s.ctx t).rc ∨ (s'.ctx t).rc = 0) := by
    intro t ht
    obtain ⟨w, hw⟩ := Option.ne_none_iff_exists'.1 ht
    obtain ⟨hd, hr⟩ := h.waits.away hI ht
    refine stored_rc hI hS hs he hi hg (by rwa [hme]) ?_ (hI.live t hd)
    rcases (h.waits.sound t w hw).2 with h2 | ⟨h2, -⟩ | ⟨h2, -⟩ <;> rw [h2]
    · cases w.fn <;> simp [KevFn.state]
    all_goals simp
  obtain ⟨k', hq, ht, hw, hrc⟩ := pictures_calls hI hS hc hs he hb hi
    (fun x v b h => hx ⟨x, v, b, h⟩) hu hz h.waits h.pictures
  obtain ⟨h1, h2⟩ := hq.agrees ht hw hrc h.rc
  exact ⟨k', hq.follows hC, h1, h2, hq.shared⟩

end
end Mnthr

import Mnthr.L5Runs.KevRegs
import Mnthr.L6Loop.Blocking
import Mnthr.L6Loop.Switches

/-!
# The loop and its backend, over runs

`loop_refines` carries every run of the loop over to the model of the backend.
What is proved of that model then holds of the loop: `loop_serves` does so for
the registrations, and `finished_all_wait` adds what the scheduler knows.
-/
namespace Mnthr
open St Kqueue
namespace Loop

section
variable {D : KevBuild} {C : KevSt → KevEvent → Prop} {l l' : Loop} {k : KevSt} {e : LoopEvent}
  {t u : Ptr} {p : KevPair}

/-! ## One step -/

/-- A wait that is about to return does so before anything else. -/
theorem thread_waitOf {e : Event} (hI : LoopInv l) (hs : l.step D (.thread e) = some l')
    (hne : ∀ b, e ≠ .cont b) : l.waitOf = none := by
  by_contra hw
  obtain ⟨t, st, hpc⟩ : ∃ t st, l.st.pc = .post t (.poll st) := by
    unfold waitOf at hw
    split at hw
    · exact ⟨_, _, ‹_›⟩
    · exact absurd rfl hw
  obtain ⟨hmay, -⟩ := phase_step hs
  obtain ⟨l1, -, hst, -⟩ := step_some hs
  have hparts : l.parts D (.thread e) = [e] := by
    cases e <;> first | rfl | exact absurd rfl (hne _)
  rw [hparts] at hst
  obtain ⟨s', hs', -⟩ := exec_cons hst
  cases e with
  | cont b => exact hne b rfl
  | tick v =>
    have hout : l.pc = .out := by
      have := hmay.2.2
      simpa only [mayCall, hpc] using this
    have hsched := hI.sched (by rw [hout]; simp) (by rw [hout]; simp)
    rw [hsched] at hpc
    cases hpc
  | call op => simp [St.step, St.mayCall, hpc] at hs'
  | block op b => simp [St.step, hpc] at hs'
  | exit b => simp [St.step, hpc] at hs'
  | sift => cases hmay.1
  | next => simp [St.step, St.next, hpc] at hs'
  | pollResume | pollFast => cases hmay.1

theorem stays_refines (hR : Refines D C l k) (hc : CalmLoop D l e) (hs : l.step D e = some l')
    (he : e = .call ∨ e = .timeout ∨ (∃ f, e = .idle f) ∨ e = .done) :
    Refines D C l' k := by
  have hinv := loopInv_step hR.inv hc hs
  have hp := phase_step hs
  obtain ⟨l1, hb, hst, hl'⟩ := step_some hs
  -- each of them moves the loop on, and does nothing else
  obtain ⟨hsched, hb', hrest⟩ : l.st.pc = .sched ∧ l.batch = [] ∧
      l1 = { l with pc := l1.pc, kevres := l1.kevres } := by
    rcases he with rfl | rfl | ⟨f, rfl⟩ | rfl
    · simp only [backend] at hb
      split at hb
      · cases hb
        have hne : l.pc ≠ .batch := by rw [hp.1]; simp
        exact ⟨hR.inv.sched (by rw [hp.1]; simp) hne, hR.batch hne, rfl⟩
      · cases hb
    · simp only [backend] at hb
      split at hb
      · cases hb
        exact ⟨hp.2.1, hR.batch (by rw [hp.1]; simp), rfl⟩
      · cases hb
    · obtain ⟨tmout, hw, -, -, -⟩ := hp
      have hne : l.pc ≠ .batch := by rw [hw]; simp
      simp only [backend, hw] at hb
      split at hb
      · cases hb
      · refine ⟨hR.inv.sched (by rw [hw]; simp) hne, hR.batch hne, ?_⟩
        cases tmout with
        | none => cases hb; rfl
        | some t =>
          simp only [Loop.idle] at hb
          split at hb
          · cases hb; rfl
          · split at hb
            · cases hb; rfl
            · cases hb
    · simp only [backend] at hb
      split at hb
      · rename_i hg
        cases hb
        exact ⟨hp.2.1, hg.2.2, rfl⟩
      · cases hb
  have hparts : l.parts D e = [] := by rcases he with rfl | rfl | ⟨f, rfl⟩ | rfl <;> rfl
  rw [hrest] at hl'
  exact hR.still (waitOf_none (.inl hsched)) hinv (step_apart hs hparts) (by rw [hl']; rfl)
    (by rw [hl']; exact ⟨rfl, fun _ _ => rfl, rfl, rfl⟩) fun _ => hb'

/-- The conditions on a step. -/
structure Seemly (D : KevBuild) (C : KevSt → KevEvent → Prop) (l : Loop) (e : LoopEvent) : Prop where
  calm : CalmLoop D l e
  apart : l.Apart e
  told : ∀ ke ∈ l.tells e, C l.kev ke

theorem refines_step (hC : Shared C) (hR : Refines D C l k) (hc : Seemly D C l e)
    (hs : l.step D e = some l') : ∃ k', Follows (kevStep D) C k k' ∧ Refines D C l' k' := by
  obtain ⟨hcalm, ha, ht⟩ := hc
  cases e with
  | thread e =>
    by_cases hcont : ∃ b, e = .cont b
    · obtain ⟨b, rfl⟩ := hcont
      cases hw : l.waitOf with
      | none => exact thread_refines hR hC hcalm ha ht (by simp) hw hs
      | some x => exact return_refines hR hcalm hw hs
    · by_cases hne : e = .next
      · subst hne
        exact next_refines hR hC hcalm hs
      · exact thread_refines hR hC hcalm ha ht hne
          (thread_waitOf hR.inv hs fun b hb => hcont ⟨b, hb⟩) hs
  | test v => exact test_refines hR hcalm hs
  | wait w b => exact wait_refines hR hC hcalm ha ht hs
  | shutdown => exact shutdown_refines hR hC hcalm hs
  | close fd => exact close_refines hR hC hcalm ht hs
  | kevent v a => exact kevent_refines hR hC hcalm ht hs
  | entry => exact entry_refines hR hC hcalm ht hs
  | call => exact ⟨k, .refl k, stays_refines hR hcalm hs (.inl rfl)⟩
  | timeout => exact ⟨k, .refl k, stays_refines hR hcalm hs (.inr (.inl rfl))⟩
  | idle f => exact ⟨k, .refl k, stays_refines hR hcalm hs (.inr (.inr (.inl ⟨f, rfl⟩)))⟩
  | done => exact ⟨k, .refl k, stays_refines hR hcalm hs (.inr (.inr (.inr rfl)))⟩

theorem refines_init (objs : Objs) (now : Nat) : Refines D C (.init objs now) .init := by
  have hseen : Seen (.init objs now) .init := by
    refine ⟨⟨⟨rfl, fun t => ?_, fun t => rfl, fun t => rfl, fun t hd => ?_, fun t hf => ?_⟩,
      ⟨fun t w hw => (by cases hw), fun t hp => (by cases hp)⟩, fun t ht => absurd rfl ht⟩, rfl,
      fun t ht => absurd rfl ht⟩
    · simp [KevSt.init, KevThr.init, Loop.init, St.init, Ctx.init]
    · exact absurd rfl hd
    · exact absurd hf fun hf => by
        simp [Loop.init, St.init, St.filed, St.pending, Sleepq.empty, Sleepq.all, Sleepq.flat,
          OrdMap.empty] at hf
  exact hseen.refines (loopInv_init objs now) rfl (fun _ => rfl) (Int.le_refl 0)

/-! ## What the two levels have in common -/

theorem Seen.shared_eq (h : l.Seen k) : k.kevents0 = l.kev.kevents0 ∧ k.kq = l.kev.kq ∧
    k.batch = l.kev.batch ∧ k.eventCount = l.kev.eventCount ∧ k.regAfter = l.kev.regAfter := by
  have hq := (KevSt.shared_iff.1 h.shared).1
  have h0 : k.kevents0 = l.kev.kevents0 := congrArg KevQueue.kevents0 hq
  have h1 : k.kq = l.kev.kq := congrArg KevQueue.kq hq
  exact ⟨h0, h1, congrArg KevQueue.batch hq, congrArg KevQueue.eventCount hq,
    by rw [KevSt.regAfter, KevSt.regAfter, h0, h1]⟩

theorem Seen.blocked (h : l.Seen k) (hI : Inv l.st) : k.Blocked u p ↔ l.kev.Blocked u p := by
  have hw : (k.thr u).wait = (l.kev.thr u).wait := h.agrees.pictures.wait u
  cases hu : l.waits u with
  | none =>
    have hn : (l.kev.thr u).wait = none := hu
    simp [KevSt.Blocked, hw, hn]
  | some w =>
    have hr := (h.agrees.waits.away hI (by rw [hu]; exact Option.some_ne_none w)).2
    have hst : (k.thr u).state = (l.kev.thr u).state := by
      rw [h.agrees.pictures.state, seen, if_neg hr]
      rfl
    rw [KevSt.Blocked, KevSt.Blocked, hw, hst]

/-- What an interrupt discards below it discards above. -/
theorem Seen.struck (h : l.Seen k) (hI : Inv l.st) (hl : (k.thr t).live) :
    (k.thr t).clears = [] ∨ (l.kev.thr t).live ∧ (k.thr t).clears = (l.kev.thr t).clears := by
  by_cases hr : l.st.pc.runs = some t
  · refine .inl (clears_unpolled ?_)
    rw [h.agrees.pictures.state, seen, if_pos hr]
    rfl
  · refine .inr ⟨?_, h.clears hr⟩
    exact Option.isSome_iff_ne_none.2 (hI.live t ((h.agrees.pictures.live t).1 hl))

/-- No two threads wait for one pair, nothing is discarded that is not
registered, no added registration is refused behind the last change, and no
descriptor with a registration is closed. -/
def Tidy (k : KevSt) (ke : KevEvent) : Prop :=
  SoleWaiter k ke ∧ Accounted k ke ∧ ClosesIdle k ke

instance (k : KevSt) (ke : KevEvent) : Decidable (Tidy k ke) := by unfold Tidy; infer_instance

theorem shared_tidy : Shared Tidy where
  silent k ke hke := by
    cases ke <;> first | exact ⟨trivial, trivial, trivial⟩ | cases hke
  cleared k t ht := by
    refine ⟨fun _ x _ hx => ?_, fun _ p hp => ?_, trivial⟩
    · rw [ht] at hx; cases hx
    · rw [ht] at hp; cases hp
  seen l k ke hI h hC := by
    obtain ⟨h0, hkq, hb, -, hreg⟩ := h.shared_eq
    have hbl : ∀ u p, k.Blocked u p ↔ l.kev.Blocked u p := fun u p => h.blocked hI
    obtain ⟨h1, h2, h3⟩ := hC
    cases ke with
    | interrupt t =>
      refine ⟨fun hl x hx hc hne => ?_, fun hl p hp => ?_, trivial⟩
      · rcases h.struck hI hl with hs | ⟨hl', hs⟩
        · rw [hs] at hc; cases hc
        · rw [hbl]; exact h1 hl' x (hreg ▸ hx) (hs ▸ hc) hne
      · rcases h.struck hI hl with hs | ⟨hl', hs⟩
        · rw [hs] at hp; cases hp
        · rw [KevSt.Registered, hreg]; exact h2 hl' p (hs ▸ hp)
    | wait w =>
      refine ⟨fun x hx hp => ?_, fun p hp => ?_, trivial⟩
      · rw [hbl]; exact h1 x (hreg ▸ hx) hp
      · rw [KevSt.Registered, hreg]; exact h2 p hp
    | close fd =>
      refine ⟨fun x hx hf => ?_, trivial, fun x hx => h3 x (hkq ▸ hx)⟩
      rw [hbl]; exact h1 x (hkq ▸ hx) hf
    | kevent refused fired =>
      refine ⟨trivial, fun p hp => ?_, trivial⟩
      rw [h0, hkq]; exact h2 p (hreg ▸ hp)
    | keventError n refused =>
      refine ⟨fun x hx hB => ?_, ?_, trivial⟩
      · rw [h0, hkq]; exact h1 x (hreg ▸ hx) ((hbl _ _).1 hB)
      · show (applyChanges (k.kevents0.take n) refused k.kq).1.length = k.regAfter.length
        rw [h0, hkq, hreg]; exact h2
    | entry =>
      refine ⟨fun y hy he x hx hp hne => ?_, fun x hx he => ?_, trivial⟩
      · rw [hbl]; exact h1 y (hb ▸ hy) he x (hreg ▸ hx) hp hne
      · rw [KevSt.Registered, hreg]; exact h2 x (hb ▸ hx) he
    | _ => exact ⟨trivial, trivial, trivial⟩

end
end Loop

/-! ## Runs -/

/-- A test of every step for the conditions. -/
def checkSeemly (D : KevBuild) (l : Loop) (es : List LoopEvent) : Bool :=
  checkAlong (Loop.step D) (fun l e =>
    checkAlong (St.step D.toDiag) (fun s k => decide (Calm s k)) l.st (l.parts D e) &&
      decide (l.Apart e) && decide (∀ ke ∈ l.tells e, Loop.Tidy l.kev ke)) l es

theorem seemly_of_check {D : KevBuild} {l : Loop} {es : List LoopEvent} (h : checkSeemly D l es) :
    Along (Loop.step D) (Loop.Seemly D Loop.Tidy) l es := by
  refine along_of_check (I := fun _ => True) (fun _ _ _ _ _ => trivial) (fun l e _ hp => ?_) trivial h
  simp only [Bool.and_eq_true] at hp
  exact ⟨along_of_decide hp.1.1, of_decide_eq_true hp.1.2, of_decide_eq_true hp.2⟩

/-- Thread 0 waits for a condition variable, and thread 1 for descriptor 5. -/
def oneWaitsOneReads : List LoopEvent :=
  [.thread (.call (.spawn 0)), .thread (.call (.spawn 0)), .call, .test 10, .thread .next,
    .thread (.block (.condWait 0) false), .thread .next, .wait ⟨.waitForRead, 5⟩ false, .timeout]

/-- The descriptor is readable; thread 1 goes on, and ends. -/
def thenReads : List LoopEvent :=
  [.kevent 11 (.entries [] [(⟨5, EVFILT_READ⟩, 1, ⟨0, 3⟩)]), .entry, .thread (.cont false),
    .thread (.exit false), .done, .test 12, .timeout]

section
variable {D : KevBuild} {C : KevSt → KevEvent → Prop} {objs : Objs} {now : Nat}
  {es : List LoopEvent} {l : Loop}

theorem refines_run (hC : Loop.Shared C)
    (hc : Along (Loop.step D) (Loop.Seemly D C) (.init objs now) es)
    (hr : exec (Loop.step D) (.init objs now) es = some l) :
    ∃ k, Follows (kevStep D) C .init k ∧ Loop.Refines D C l k :=
  follows_sim (R := Loop.Refines D C) (fun _ _ _ _ hR hc hs => Loop.refines_step hC hR hc hs)
    (Loop.refines_init objs now) hc hr

/-- As long as no wait is about to return, the backend of the loop is in the
state that a run of its model ends in. -/
theorem loop_refines (hr : exec (Loop.step D) (.init objs now) es = some l)
    (hc : Along (Loop.step D) (CalmLoop D) (.init objs now) es)
    (ha : Along (Loop.step D) Loop.Apart (.init objs now) es) (hw : l.waitOf = none) :
    ∃ kes k, exec (kevStep D) .init kes = some k ∧ l.Seen k := by
  have hany : Loop.Shared fun _ _ => True := ⟨⟨fun _ _ _ => trivial, fun _ _ _ => trivial⟩,
    fun _ _ _ _ _ _ => trivial⟩
  obtain ⟨k, ⟨kes, hk, -⟩, hR⟩ := refines_run hany
    (along_mono (fun _ _ h => ⟨h.1, h.2, fun _ _ => trivial⟩) (along_and hc ha)) hr
  exact ⟨kes, k, hk, hR.views.seen hw⟩

theorem loop_refines_oneWaitsOneReads : ∃ l,
    sampleLoop (oneWaitsOneReads ++ thenReads.take 3) = some l ∧ l.st.pc = .user 1 ∧
    ∃ kes k, exec (kevStep .sample) .init kes = some k ∧ l.Seen k := by
  obtain ⟨l, hl⟩ := Option.isSome_iff_exists.1
    (show (sampleLoop (oneWaitsOneReads ++ thenReads.take 3)).isSome by decide)
  have hpc : l.st.pc = .user 1 := fact_of_map hl (f := fun l => l.st.pc) (by decide)
  have hc : Along (Loop.step .sample) (Loop.Seemly .sample Loop.Tidy) (.init .sample 0)
      (oneWaitsOneReads ++ thenReads.take 3) := seemly_of_check (by decide)
  exact ⟨l, hl, hpc, loop_refines hl (along_mono (fun _ _ h => h.calm) hc)
    (along_mono (fun _ _ h => h.apart) hc) (Loop.waitOf_none (.inr ⟨1, hpc⟩))⟩

/-! ## Who is served -/

/-- Every thread that is blocked in a wait for a descriptor is registered for it,
once the pending changes are applied, or an entry to come reports that this
failed; `event_count` is the number of registrations. -/
structure Loop.Serves (l : Loop) : Prop where
  stranded : l.kev.NoneStranded
  count : CountExact l.kev

theorem serves_run (hr : exec (Loop.step D) (.init objs now) es = some l)
    (hc : Along (Loop.step D) (Loop.Seemly D Loop.Tidy) (.init objs now) es)
    (hw : l.waitOf = none) : l.Serves ∧ (l.pc ≠ .batch → l.batch = []) ∧
      Waits l.st l.waits := by
  obtain ⟨k, ⟨kes, hk, hC⟩, hR⟩ := refines_run Loop.shared_tidy hc hr
  have hseen := hR.views.seen hw
  -- the invariants of the model of the backend
  obtain ⟨-, hN, -, hcount⟩ := exec_inv
    (I := fun k => KevInv k ∧ k.NoneStranded ∧ (k.kq.map Prod.fst).Nodup ∧ CountExact k)
    (fun _ _ _ hI hc hs => ⟨(kev_step hI.1 hs).1, stranded_step hI.1 hI.2.1 hc.1 hs,
      keys_step hI.2.2.1 hs, (count_step hI.2.2.1 hc.2.2 hI.2.2.2 hs).2 hc.2.1⟩)
    ⟨kev_init, fun u p h => (by obtain ⟨w, hw, -⟩ := h; cases hw), List.nodup_nil, rfl⟩ hC hk
  obtain ⟨-, -, hb, hec, hreg⟩ := hseen.shared_eq
  refine ⟨⟨fun u p hbl => ?_, ?_⟩, hR.batch, hseen.agrees.waits⟩
  · rw [← hreg, ← hb]
    exact hN u p ((hseen.blocked hR.inv.inv).2 hbl)
  · rw [CountExact, ← hec, ← hreg]
    exact hcount

theorem Loop.Serves.registered (h : l.Serves) (hb : l.batch = []) {u : Ptr} {p : KevPair}
    (hbl : l.kev.Blocked u p) : (p, u) ∈ l.kev.regAfter ∧ l.passes := by
  have hreg : (p, u) ∈ l.kev.regAfter := by
    rcases h.stranded u p hbl with hreg | ⟨x, hx, -⟩
    · exact hreg
    · rw [show l.kev.batch = [] from hb] at hx; cases hx
  exact ⟨hreg, h.count.polls.2 (List.ne_nil_of_mem hreg)⟩

theorem Loop.parts_eintr {e : LoopEvent} (ha : l.Apart e) :
    Along (St.step D.toDiag) (fun _ e => e.eintr = false) l.st (l.parts D e) := by
  refine along_of_forall fun k hk => ?_
  cases e with
  | thread e =>
    rcases parts_thread D l e with he | ⟨b, rfl, he⟩ <;> rw [he] at hk
    · rw [List.mem_singleton.1 hk]; exact ha.1
    · simp only [List.mem_cons, List.not_mem_nil, or_false] at hk
      rcases hk with rfl | rfl
      · exact ha.1
      · rfl
  | test v =>
    simp only [parts] at hk
    split at hk
    · cases hk
    · simp only [List.mem_cons, List.not_mem_nil, or_false] at hk
      rcases hk with rfl | rfl <;> rfl
  | wait w b =>
    rw [List.mem_singleton.1 hk]
    exact ha
  | shutdown | kevent => rw [List.mem_singleton.1 hk]; rfl
  | entry =>
    simp only [parts] at hk
    split at hk
    · split at hk <;> rw [List.mem_singleton.1 hk] <;> rfl
    · cases hk
  | call | close | timeout | idle | done => cases hk

/-- Whoever is resumed runs, as no switch is taken for an interrupted one. -/
theorem resumed_run (hr : exec (Loop.step D) (.init objs now) es = some l)
    (hc : Along (Loop.step D) (Loop.Seemly D C) (.init objs now) es) (t : Ptr)
    (ht : (l.st.ctx t).state = .resumed) : l.st.pc.runs = some t := by
  refine (exec_inv (I := fun l => LoopInv l ∧
    ∀ t, (l.st.ctx t).state = .resumed → l.st.pc.runs = some t) (fun l e l' hI hc hs => ?_)
    ⟨loopInv_init objs now, fun t ht => (by cases ht)⟩ hc hr).2 t ht
  refine ⟨loopInv_step hI.1 hc.calm hs, ?_⟩
  exact ((Loop.loop_projects D).inv (I := fun u => (Inv u ∧ SleepInv u) ∧
      ∀ t, (u.ctx t).state = .resumed → u.pc.runs = some t)
    (C := fun u k => Calm u k ∧ k.eintr = false)
    (fun u k v hu hk hv => ⟨⟨inv_step hu.1.1 hv, sinv_step hu.1.1 hu.1.2 hk.1 hv⟩,
      resumed_step hu.1.1 hu.1.2 hv hk.2 hu.2⟩) hs ⟨⟨hI.1.inv, hI.1.sleep⟩, hI.2⟩
    (along_and hc.calm (Loop.parts_eintr hc.apart))).2

/-- The states of threads that only another thread can wake. -/
def CoState.onOthers : CoState → Bool
  | .signalSubscribe | .join | .joinInterrupted | .condwait => true
  | _ => false

theorem onOthers_of {st : CoState} (hd : st ≠ .dormant) (hr : st ≠ .resumed)
    (hready : st.ready = false) (htimed : st.timed = false) (hp : st.polling = false) :
    st.onOthers := by
  cases st <;> simp_all [CoState.ready, CoState.timed, CoState.polling, CoState.onOthers]

theorem KevFn.filters_ne (fn : KevFn) : fn.filters ≠ [] := by cases fn <;> simp [KevFn.filters]

end
end Mnthr

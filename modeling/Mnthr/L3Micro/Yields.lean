import Mnthr.L3Micro.Decompose

/-!
# Every step is a chain of micro-steps: calls that yield, and the scheduler

The second half of the decomposition, ending in `step_micro`.
-/
namespace Mnthr
open St

section
variable {D : Diag} {s s' : St} {c : Ptr} {q : Waitq}

/-! ## Yielding -/

theorem parked_of_swapBack {k : Call} {b : Bool} (hme : s.me = some c)
    (hst : (s.ctx c).state.resumable)
    (h : (s.setCtx c { s.ctx c with uc := k }).swapBack c b = some s') : s' = s.parked c k b := by
  unfold swapBack at h
  cases b with
  | true => cases h; rfl
  | false =>
    have hst' : ((s.setCtx c { s.ctx c with uc := k }).ctx c).state.resumable := by
      simpa [setCtx] using hst
    simp only [hst', if_true] at h
    simp only [setCtx, hme] at h
    simpa [parked, setCtx] using h.symm

theorem yieldAs_micro {k : Call} {b : Bool} (hpc : s.pc = .lib c) (hme : s.me = some c)
    (hk : Suspends s c k) (ht : k.target = none) (h : s.yieldAs k b = some s') :
    Micro D (.yield c k b) s s' := by
  simp only [yieldAs, hme, Option.bind_some] at h
  rw [parked_of_swapBack hme (by rw [hk.state]; exact hk.real) h]
  exact .yield hpc hk ht b

theorem sleepUntil_micro {k : Call} {b : Bool} {d : Nat} {dormant : Bool} (hpc : s.pc = .lib c)
    (hme : s.me = some c) (hk : Suspends s c k)
    (ht : ∀ x n, k.target = some (x, n) →
      (s.ctx x).id = n ∧ (dormant = false → (s.ctx x).state ≠ .dormant))
    (h : s.sleepUntil d k b = some s') : Micro D (.sleepYield c d k b dormant) s s' := by
  simp only [sleepUntil, hme, Option.bind_some] at h
  have he : ((s.sleepqRemove c).setCtx c { (s.sleepqRemove c).ctx c with
      expireTicks := d }).sleepqEnqueue c = s.asleep c d := by
    simp [sleepqEnqueue, sleepqRemove, asleep, setCtx]
  rw [he, yieldAs, show (s.asleep c d).me = some c from hme, Option.bind_some] at h
  have hst : ((s.asleep c d).ctx c).state.resumable := by
    have := hk.real
    rw [← hk.state] at this
    simpa [asleep, setCtx] using this
  rw [parked_of_swapBack (s := s.asleep c d) hme hst h]
  exact .sleepYield hpc hk ht d b

/-- Entering a wait queue keeps everything about the context but its place. -/
theorem append_suspends {k : Call} (hk : k.queue = some q) (hr : k.coState.resumable)
    (hst : (s.ctx c).state = k.coState) :
    Suspends (s.appended q c) c k := by
  refine ⟨hr, hst, fun q' hq' => ?_⟩
  rw [hk] at hq'
  cases hq'
  simp [appended, WaitQs.append, WaitQs.setQueue, WaitQs.setHosting]

theorem may_append {e : Event} {k : Call} (hs : s.suspends e = some k) (hk : k.queue = some q) :
    May s e (.append c q) := by
  show (s.suspends e).bind Call.queue = some q
  rw [hs]
  exact hk

theorem may_enterLib {e : Event} {k : Call} (hs : s.suspends e = some k) :
    May s e (.enterLib c k.coState) := congrArg (Option.map Call.coState) hs

theorem appendMe_eq (hme : s.me = some c) : s.appendMe q = some (s.appended q c) := by
  simp [appendMe, hme, appended]

theorem joinWaitq_micro {e : Event} {k : Call} {b : Bool} {s0 : St} (hpc : s.pc = .lib c)
    (hme : s.me = some c) (hk : k.queue = some q) (ht : k.target = none)
    (hr : k.coState.resumable) (hst : (s.ctx c).state = k.coState) (he : b = e.eintr)
    (hs : s0.suspends e = some k) (hd : s0.deadlineOf e = none) (h : s.joinWaitq q k b = some s') :
    Steps (Micro D) (May s0 e) s s' := by
  simp only [joinWaitq, appendMe_eq hme, Option.bind_some] at h
  have hy : Micro D (.yield c k b) (s.appended q c) s' :=
    yieldAs_micro hpc hme (append_suspends hk hr hst) ht h
  exact .head (may_append hs hk) (.append hpc q) (.one (a := .yield c k b) ⟨he, hs, hd⟩ hy)

/-- `me->co.state = st` is the start of the way to a yield. -/
theorem setState_eq {st : CoState} (hme : s.me = some c) :
    s.setState st = some (s.inLib c st) := by
  simp [setState, hme, inLib]

section Block
variable {e : Event} {s0 : St} {b : Bool}
  (hpc : s.pc = .user c ∨ ∃ k, s.pc = .post c k ∧ k.target = none) (hme : s.me = some c)
include hpc hme

theorem condWait_micro {k : Call} (hk : k.queue = some q) (ht : k.target = none)
    (hst : k.coState = .condwait) (he : b = e.eintr) (hs : s0.suspends e = some k)
    (hd : s0.deadlineOf e = none) (h : s.condWait q k b = some s') :
    Steps (Micro D) (May s0 e) s s' := by
  simp only [St.condWait, setState_eq hme, Option.bind_some] at h
  have hj : Steps (Micro D) (May s0 e) (s.inLib c .condwait) s' :=
    joinWaitq_micro rfl hme hk ht (by rw [hst]; rfl) (by simp [inLib, setCtx, hst]) he hs hd h
  have hmay : May s0 e (.enterLib c .condwait) := hst ▸ may_enterLib hs
  exact .head hmay (.enterLib hpc rfl) hj

end Block

/-! ## Calls that may yield, up to the switch -/

theorem returns_micro {e : Event} (v : Int) : Steps (Micro D) (May s e) s (s.returns v) :=
  env_micro _ _

/-- The end of a wait loop: the call returns, after a yield or without one. -/
theorem loopEnd_micro {e : Event} {k : Call} {o : Objs}
    (hpc : s.pc = .user c ∨ (s.pc = .post c k ∧ (∃ b, e = .cont b) ∧ (s.ctx c).rc = 0))
    (hme : s.me = some c) (ht : k.target = none)
    (h : { s with objs := o }.complete 0 = some s') : Steps (Micro D) (May s e) s s' := by
  obtain ⟨d, hd, rfl⟩ := Option.map_eq_some_iff.1 h
  have hdc : d = c := Option.some.inj (hd.symm.trans hme)
  subst hdc
  rcases hpc with hpc | ⟨hpc, he, hrc⟩
  · simpa only [hpc] using env_micro (s := s) (e := e) o (some ⟨some d, s.pc.call, 0⟩)
  · simp only [hpc, Pc.call]
    exact .one (a := .complete d k 0) ⟨he, hpc⟩
      (.complete s.sleepq o hpc (by simp [ht]) (.inl rfl) fun _ => .inl hrc)

section Loops
variable {e : Event} {b : Bool} {i : Nat} (hme : s.me = some c) (he : b = e.eintr)
  (hd : s.deadlineOf e = none)
include hme he hd

/-- A wait loop around a condition variable. -/
theorem loop_micro {k : Call} {o : Objs} {P : Prop} [Decidable P] (hk : k.queue = some q)
    (ht : k.target = none) (hst : k.coState = .condwait) (hs : s.suspends e = some k)
    (hpc : s.pc = .user c ∨ (s.pc = .post c k ∧ (∃ b, e = .cont b) ∧ (s.ctx c).rc = 0))
    (h : (if P then s.condWait q k b else { s with objs := o }.complete 0) = some s') :
    Steps (Micro D) (May s e) s s' := by
  have hpc' : s.pc = .user c ∨ ∃ k, s.pc = .post c k ∧ k.target = none :=
    hpc.imp id fun h => ⟨k, h.1, ht⟩
  split at h
  · exact condWait_micro hpc' hme hk ht hst he hs hd h
  · exact loopEnd_micro hpc hme ht h

theorem semaLoop_micro (hs : s.suspends e = some (.semaAcquire i))
    (hpc : s.pc = .user c ∨ (s.pc = .post c (.semaAcquire i) ∧ (∃ b, e = .cont b) ∧
      (s.ctx c).rc = 0)) (h : s.semaLoop i b = some s') : Steps (Micro D) (May s e) s s' := by
  unfold semaLoop at h
  by_cases h0 : s.objs.semaI i = 0
  · rw [if_pos h0] at h
    exact loop_micro (P := True) (o := s.objs) hme he hd rfl rfl rfl hs hpc (by simpa using h)
  · rw [if_neg h0] at h
    split at h
    · exact loopEnd_micro hpc hme rfl h
    · cases h

theorem isemaLoop_micro (hs : s.suspends e = some (.isemaWait i))
    (hpc : s.pc = .user c ∨ (s.pc = .post c (.isemaWait i) ∧ (∃ b, e = .cont b) ∧
      (s.ctx c).rc = 0)) (h : s.isemaLoop i b = some s') : Steps (Micro D) (May s e) s s' :=
  loop_micro (o := s.objs) hme he hd rfl rfl rfl hs hpc h

theorem readLoop_micro (hs : s.suspends e = some (.readLock i))
    (hpc : s.pc = .user c ∨ (s.pc = .post c (.readLock i) ∧ (∃ b, e = .cont b) ∧
      (s.ctx c).rc = 0)) (h : s.readLoop i b = some s') : Steps (Micro D) (May s e) s s' :=
  loop_micro hme he hd rfl rfl rfl hs hpc h

theorem writeLoop_micro (hs : s.suspends e = some (.writeLock i))
    (hpc : s.pc = .user c ∨ (s.pc = .post c (.writeLock i) ∧ (∃ b, e = .cont b) ∧
      (s.ctx c).rc = 0)) (h : s.writeLoop i b = some s') : Steps (Micro D) (May s e) s s' :=
  loop_micro hme he hd rfl rfl rfl hs hpc h

end Loops

section Block
variable {b : Bool} (hpc : s.pc = .user c) (hme : s.me = some c)
include hpc hme

theorem sleepCall_micro {e : Event} {d : Nat} (he : b = e.eintr)
    (hs : s.suspends e = some (.sleep d)) (hd : s.deadlineOf e = some d)
    (h : s.sleepCall d b = some s') : Steps (Micro D) (May s e) s s' := by
  simp only [sleepCall, setState_eq hme, Option.bind_some] at h
  have hk : Suspends (s.inLib c .sleep) c (.sleep d) :=
    ⟨rfl, by simp [inLib, setCtx, Call.coState], by simp [Call.queue]⟩
  have hy : Micro D (.sleepYield c d (.sleep d) b false) (s.inLib c .sleep) s' :=
    sleepUntil_micro rfl hme hk (by simp [Call.target]) h
  exact .head (may_enterLib hs) (.enterLib (.inl hpc) rfl)
    (.one (a := .sleepYield c d (.sleep d) b false) ⟨he, hs, hd, by simp⟩ hy)

theorem join_micro {x : Ptr} (h : s.join D x b = some s') :
    Steps (Micro D) (May s (.block (.join x) b)) s s' := by
  unfold St.join at h
  split at h
  · rename_i hr
    simp only [setState_eq hme, Option.bind_some] at h
    have hsus : s.suspends (.block (.join x) b) = some (.join x) := by simp [suspends, hr]
    have hj : Steps (Micro D) (May s (.block (.join x) b)) (s.inLib c .join) s' :=
      joinWaitq_micro rfl hme rfl rfl rfl (by simp [inLib, setCtx, Call.coState]) rfl hsus rfl h
    exact .head (may_enterLib hsus) (.enterLib (.inl hpc) rfl) hj
  · cases h; exact returns_micro _

omit hpc in
/-- `mnthr_set_interrupt` leaves the running thread alone, and a resumable
target resumable. -/
theorem setInterrupt_frame {x : Ptr} {s1 : St} (h : s.setInterrupt D x = some s1) :
    s1.pc = s.pc ∧ s1.me = some c ∧ c ≠ x ∧ (s1.ctx x).id = (s.ctx x).id ∧
      ((s.ctx x).state.resumable → (s1.ctx x).state.resumable) := by
  unfold setInterrupt at h
  split at h
  · cases h
  · rename_i hne
    have hcx : c ≠ x := by intro heq; subst heq; exact hne hme
    split at h
    · cases h; exact ⟨rfl, hme, hcx, rfl, id⟩
    · cases h
      refine ⟨rfl, hme, hcx, ?_, fun _ => ?_⟩
      all_goals simp [queueNow, sleepqEnqueue, sleepqRemove, setCtx, CoState.resumable]

omit hpc in
/-- `set_resume` leaves the running thread alone. -/
theorem setResume_frame {x : Ptr} {s1 : St} (h : s.setResume x = some s1) :
    s1.pc = s.pc ∧ s1.me = some c := by
  unfold setResume at h
  split at h
  · cases h
  · split at h
    · cases h; exact ⟨rfl, hme⟩
    · cases h; exact ⟨rfl, hme⟩

theorem setInterruptAndJoin_micro {x : Ptr} (h : s.setInterruptAndJoin D x b = some s') :
    Steps (Micro D) (May s (.block (.setInterruptAndJoin x) b)) s s' := by
  unfold St.setInterruptAndJoin at h
  split at h
  · rename_i hr
    obtain ⟨s1, h1, h2⟩ := Option.bind_eq_some_iff.1 h
    obtain ⟨hpc1, hme1, -, -⟩ := setInterrupt_frame hme h1
    rw [hpc] at hpc1
    simp only [setState_eq hme1, Option.bind_some] at h2
    have hsus : s.suspends (.block (.setInterruptAndJoin x) b) = some (.interruptJoin x) := by
      simp [suspends, hr]
    have hj : Steps (Micro D) (May s (.block (.setInterruptAndJoin x) b))
        (s1.inLib c .joinInterrupted) s' :=
      joinWaitq_micro rfl hme1 rfl rfl rfl (by simp [inLib, setCtx, Call.coState]) rfl hsus rfl h2
    refine ((setInterrupt_micro h1).mono ?_).trans
      (.head (may_enterLib hsus) (.enterLib (.inl hpc1) rfl) hj)
    intro a heq
    subst heq
    simpa [May, interrupts, hr] using mem_notMe h1
  · cases h; exact returns_micro _

theorem setInterruptAndJoinWithTimeout_micro {x : Ptr} {v : Nat}
    (h : s.setInterruptAndJoinWithTimeout D x v b = some s') :
    Steps (Micro D) (May s (.block (.setInterruptAndJoinWithTimeout x v) b)) s s' := by
  unfold St.setInterruptAndJoinWithTimeout at h
  split at h
  · rename_i hr
    obtain ⟨s1, h1, h2⟩ := Option.bind_eq_some_iff.1 h
    obtain ⟨hpc1, hme1, hcx, hid, hres⟩ := setInterrupt_frame hme h1
    rw [hpc] at hpc1
    rw [setState_eq hme1, Option.bind_some, show (s1.inLib c .joinInterrupted).me = some c from hme1,
      Option.bind_some] at h2
    obtain ⟨d, hd⟩ : ∃ d, deadline s.now .msec v = d := ⟨_, rfl⟩
    obtain ⟨s3, hs3⟩ : ∃ u : St, u = (s1.inLib c .joinInterrupted).setCtx c
      { (s1.inLib c .joinInterrupted).ctx c with expireTicks := d } := ⟨_, rfl⟩
    have hm3 : s3.me = some c := by rw [hs3]; exact hme1
    have hp3 : s3.pc = .lib c := by rw [hs3]; rfl
    replace h2 : (s3.appendMe (.ctx x)).bind (fun s4 =>
        s4.sleepUntil d (.interruptJoinTimeout x (s4.ctx x).id) b) = some s' := by
      rw [hs3, ← hd]; exact h2
    rw [appendMe_eq hm3, Option.bind_some] at h2
    have hst : (s3.ctx c).state = .joinInterrupted := by simp [hs3, inLib, setCtx]
    have hx : s3.ctx x = s1.ctx x := by simp [hs3, inLib, setCtx, hcx.symm]
    have hsus : s.suspends (.block (.setInterruptAndJoinWithTimeout x v) b) =
        some (.interruptJoinTimeout x (s3.ctx x).id) := by
      simp [suspends, hr, hx, hid]
    have hexp : May s (.block (.setInterruptAndJoinWithTimeout x v) b) (.expire c d) :=
      ⟨x, v, b, rfl⟩
    have hy : Micro D (.sleepYield c d (.interruptJoinTimeout x (s3.ctx x).id) b false)
        (s3.appended (.ctx x) c) s' := by
      refine sleepUntil_micro hp3 hm3 (append_suspends rfl rfl hst) ?_ h2
      rintro y n ⟨⟩
      refine ⟨rfl, fun _ hdorm => ?_⟩
      have := hres hr
      rw [← hx, show (s3.ctx x).state = .dormant from hdorm] at this
      cases this
    refine ((setInterrupt_micro h1).mono ?_).trans
      (.head (may_enterLib hsus) (.enterLib (.inl hpc1) rfl)
        (.head (u := s3) hexp (by rw [hs3]; exact .expire rfl d)
          (.head (may_append hsus rfl) (.append hp3 _)
            (.one (a := .sleepYield c d _ b false) ?_ hy))))
    · intro a heq
      subst heq
      simpa [May, interrupts, hr] using mem_notMe h1
    · exact ⟨rfl, hsus, by simp [deadlineOf, hd], by simp⟩
  · cases h; exact returns_micro _

theorem signalSubscribe_micro {g : Nat} (h : s.signalSubscribe g b = some s') :
    Steps (Micro D) (May s (.block (.signalSubscribe g) b)) s s' := by
  unfold St.signalSubscribe at h
  rw [setState_eq (s := { s with objs := s.objs.setOwner g s.me }) hme, Option.bind_some] at h
  set s1 : St := { s with objs := s.objs.setOwner g s.me }
  have hk : Suspends (s1.inLib c .signalSubscribe) c (.subscribe g) :=
    ⟨rfl, by simp [inLib, setCtx, Call.coState], by simp [Call.queue]⟩
  have hy : Micro D (.yield c (.subscribe g) b) (s1.inLib c .signalSubscribe) s' :=
    yieldAs_micro rfl hme hk rfl h
  exact .head may_env (.env (s.objs.setOwner g s.me) s.now s.ret)
    (.head (may_enterLib (k := .subscribe g) rfl) (.enterLib (s := s1) (.inl hpc) rfl)
      (.one (a := .yield c (.subscribe g) b) ⟨rfl, rfl, rfl⟩ hy))

theorem signalSubscribeWithTimeout_micro {g v : Nat}
    (h : s.signalSubscribeWithTimeout g v b = some s') :
    Steps (Micro D) (May s (.block (.signalSubscribeWithTimeout g v) b)) s s' := by
  unfold St.signalSubscribeWithTimeout at h
  rw [setState_eq (s := { s with objs := s.objs.setOwner g s.me }) hme, Option.bind_some] at h
  set s1 : St := { s with objs := s.objs.setOwner g s.me }
  have hk : Suspends (s1.inLib c .signalSubscribe) c (.subscribeTimeout g) :=
    ⟨rfl, by simp [inLib, setCtx, Call.coState], by simp [Call.queue]⟩
  have hy : Micro D (.sleepYield c (deadline s.now .msec v) (.subscribeTimeout g) b false)
      (s1.inLib c .signalSubscribe) s' :=
    sleepUntil_micro rfl hme hk (by simp [Call.target]) h
  exact .head may_env (.env (s.objs.setOwner g s.me) s.now s.ret)
    (.head (may_enterLib (k := .subscribeTimeout g) rfl) (.enterLib (s := s1) (.inl hpc) rfl)
      (.one (a := .sleepYield c _ (.subscribeTimeout g) b false) ⟨rfl, rfl, rfl, by simp⟩ hy))

theorem signalErrorAndJoin_micro {g : Nat} {v : Int} (h : s.signalErrorAndJoin g v b = some s') :
    Steps (Micro D) (May s (.block (.signalErrorAndJoin g v) b)) s s' := by
  unfold St.signalErrorAndJoin at h
  split at h
  · cases h; exact returns_micro _
  · rename_i o ho
    split at h
    · cases h
    · split at h
      · rename_i hst
        obtain ⟨s1, h1, h2⟩ := Option.bind_eq_some_iff.1 h
        obtain ⟨hpc1, hme1⟩ := setResume_frame (s := s.setCtx o { s.ctx o with rc := v }) hme h1
        have hpc1' : s1.pc = .user c := hpc1.trans hpc
        simp only [setState_eq hme1, Option.bind_some] at h2
        have hsus : s.suspends (.block (.signalErrorAndJoin g v) b) = some (.errorJoin o) := by
          simp [suspends, subscriber, ho, hst]
        have hj : Steps (Micro D) (May s (.block (.signalErrorAndJoin g v) b))
            (s1.inLib c .joinInterrupted) s' :=
          joinWaitq_micro rfl hme1 rfl rfl rfl (by simp [inLib, setCtx, Call.coState]) rfl
            hsus rfl h2
        refine ((signalRc_micro ho hst h1).mono ?_).trans
          (.head (may_enterLib hsus) (.enterLib (.inl hpc1') rfl) hj)
        rintro a ⟨x, hx, rfl | rfl⟩
        · exact .inr hx
        · exact hx
      · cases h; exact returns_micro _

theorem semaAcquire_micro {i : Nat} (h : s.semaAcquire i b = some s') :
    Steps (Micro D) (May s (.block (.semaAcquire i) b)) s s' := by
  unfold St.semaAcquire at h
  split at h
  · cases h; exact env_micro _ _
  · exact semaLoop_micro hme rfl rfl rfl (.inl hpc) h

theorem isemaWait_micro {i : Nat} (h : s.isemaWait i b = some s') :
    Steps (Micro D) (May s (.block (.isemaWait i) b)) s s' := by
  unfold St.isemaWait at h
  split at h
  · exact isemaLoop_micro hme rfl rfl rfl (.inl hpc) h
  · cases h

omit hpc hme in
/-- What a thread created for a waiter looks like, and what is left alone. -/
theorem create_frame {x : Ptr} {s1 : St} (h : Micro D (.create x) s s1) :
    s1.pc = s.pc ∧ s1.me = s.me ∧ (s1.ctx x).f ≠ none ∧ (s1.ctx x).uc = .start ∧
      (s1.ctx x).id = s.coId := by
  cases h with
  | createFree => simp [setCtx]
  | createNew => simp [setCtx]

omit hpc hme in
/-- `set_resume` of a context with a thread. -/
theorem setResume_of_some {x : Ptr} (h : s.setResume x = some s') (hf : (s.ctx x).f ≠ none) :
    s.me ≠ some x ∧ s' = s.queueNow x { s.ctx x with state := .setResume } := by
  unfold setResume at h
  split at h
  · cases h
  · rename_i hne
    cases h
    exact ⟨hne, rfl⟩

/-- `mnthr_wait_for` step by step: the thread is created, the caller enters its
wait queue, the thread is set for resume, the caller goes to sleep. -/
theorem waitFor_cases {v f : Nat} (h : s.waitFor v f b = some s') : ∃ s1 x,
    s.popFree.1 = x ∧ c ≠ x ∧ Micro D (.create x) s s1 ∧ s1.pc = .user c ∧ s1.me = some c ∧
      (s1.ctx x).f ≠ none ∧ (s1.ctx x).uc = .start ∧ (s1.ctx x).id = s.coId ∧
      s1.coId = (s.coId + 1).bmod (2 ^ 32) ∧
      Micro D (.sleepYield c (deadline s.now .msec v) (.waitFor x (s1.ctx x).id) b false)
        (((s1.inLib c .waitfor).appended (.ctx x) c).queueNow x
          { s1.ctx x with state := .setResume }) s' := by
  unfold St.waitFor at h
  obtain ⟨⟨x, s1⟩, h1, h2⟩ := Option.bind_eq_some_iff.1 h
  obtain ⟨hx, hm⟩ := vnew_popFree (D := D) h1
  obtain ⟨hpc1, hme1, hf, huc, hid0⟩ := create_frame hm
  rw [hpc] at hpc1
  rw [hme] at hme1
  simp only [setState_eq hme1, Option.bind_some] at h2
  rw [appendMe_eq (show (s1.inLib c .waitfor).me = some c from hme1), Option.bind_some] at h2
  obtain ⟨s3, h3, h4⟩ := Option.bind_eq_some_iff.1 h2
  have hcx : c ≠ x := by
    intro heq
    subst heq
    unfold setResume at h3
    rw [if_pos (show ((s1.inLib c .waitfor).appended (.ctx c) c).me = some c from hme1)] at h3
    cases h3
  have hsx : ((s1.inLib c .waitfor).appended (.ctx x) c).ctx x = s1.ctx x := by
    simp [appended, inLib, setCtx, hcx.symm]
  have h3' := (setResume_of_some h3 (by rw [hsx]; exact hf)).2
  rw [hsx] at h3'
  have hid : (s3.ctx x).id = (s1.ctx x).id := by
    rw [h3']; simp [queueNow, sleepqEnqueue, sleepqRemove, setCtx]
  have hk : Suspends s3 c (.waitFor x (s1.ctx x).id) := by
    have h0 : Suspends ((s1.inLib c .waitfor).appended (.ctx x) c) c (.waitFor x (s1.ctx x).id) :=
      append_suspends rfl rfl (by simp [inLib, setCtx, Call.coState])
    rw [h3']
    refine ⟨rfl, ?_, h0.queued⟩
    have := h0.state
    simpa [queueNow, sleepqEnqueue, sleepqRemove, setCtx, hcx] using this
  refine ⟨s1, x, hx.symm, hcx, hm, hpc1, hme1, hf, huc, hid0, vnew_coId h1 popFree_coId, ?_⟩
  rw [← h3']
  refine sleepUntil_micro (by rw [h3']; rfl) (by rw [h3']; exact hme1) hk ?_ (hid ▸ h4)
  rintro y n ⟨⟩
  refine ⟨hid, fun _ => ?_⟩
  rw [h3']
  simp [queueNow, sleepqEnqueue, sleepqRemove, setCtx]

theorem waitFor_micro {v f : Nat} (h : s.waitFor v f b = some s') :
    Chain D s (.block (.waitFor v f) b) s' := by
  obtain ⟨s1, x, hx, hcx, hm, hpc1, hme1, hf, huc, hid, -, hy⟩ := waitFor_cases (D := D) hpc hme h
  have hcr : s.creates (.block (.waitFor v f) b) = some x := congrArg some hx
  have hsx : ((s1.inLib c .waitfor).appended (.ctx x) c).ctx x = s1.ctx x := by
    simp [appended, inLib, setCtx, hcx.symm]
  have hres : Micro D (.resume x) ((s1.inLib c .waitfor).appended (.ctx x) c)
      (((s1.inLib c .waitfor).appended (.ctx x) c).queueNow x
        { s1.ctx x with state := .setResume }) := by
    have := Micro.resume (D := D) (s := (s1.inLib c .waitfor).appended (.ctx x) c) (c := x)
      (fun hm => hcx (Option.some.inj (hme1.symm.trans hm))) (by rw [hsx]; exact hf)
      (.inr (.inr (by rw [hsx]; exact huc)))
    rwa [hsx] at this
  have hmay : May s (.block (.waitFor v f) b) (.resume x) := by simp [May, starts, hcr]
  have hsus : s.suspends (.block (.waitFor v f) b) = some (.waitFor x (s1.ctx x).id) := by
    rw [hid, ← hx]; rfl
  refine ⟨s1, .create hcr hm, .head (may_enterLib hsus) (.enterLib (.inl hpc1) rfl)
    (.head (may_append hsus rfl) (.append rfl _) (.head hmay hres
      (.one (a := .sleepYield c _ (.waitFor x (s1.ctx x).id) b false) ⟨rfl, hsus, rfl, by simp⟩
        hy)))⟩

theorem peek_micro {x : Ptr} {v : Nat} (h : s.peek x v b = some s') :
    Steps (Micro D) (May s (.block (.peek x v) b)) s s' := by
  simp only [St.peek, setState_eq hme, Option.bind_some] at h
  rw [appendMe_eq (show (s.inLib c .peek).me = some c from hme), Option.bind_some] at h
  obtain ⟨k, hkx⟩ : ∃ k, k = Call.peek x (((s.inLib c .peek).appended (.ctx x) c).ctx x).id :=
    ⟨_, rfl⟩
  rw [← hkx] at h
  have hk : Suspends ((s.inLib c .peek).appended (.ctx x) c) c k := by
    rw [hkx]; exact append_suspends rfl rfl (by simp [inLib, setCtx, Call.coState])
  -- the flag says whether the target was dormant when the call was made
  have hy : Micro D (.sleepYield c (deadline s.now .msec v) k b
      (decide ((s.ctx x).state = .dormant))) ((s.inLib c .peek).appended (.ctx x) c) s' := by
    refine sleepUntil_micro rfl hme hk ?_ h
    rw [hkx]
    rintro y n ⟨⟩
    refine ⟨rfl, fun hd => ?_⟩
    by_cases hxc : x = c
    · subst hxc; simp [appended, inLib, setCtx]
    · simpa [appended, inLib, setCtx, hxc] using hd
  have hsus : s.suspends (.block (.peek x v) b) = some k := by
    rw [hkx]
    by_cases hxc : x = c
    · subst hxc; simp [suspends, appended, inLib, setCtx]
    · simp [suspends, appended, inLib, setCtx, hxc]
  have hlib : May s (.block (.peek x v) b) (.enterLib c .peek) := by
    have := may_enterLib (c := c) hsus
    rwa [hkx] at this
  refine .head hlib (.enterLib (.inl hpc) rfl)
    (.head (may_append hsus (by rw [hkx]; rfl)) (.append rfl _)
      (.one (a := .sleepYield c _ k b _) ⟨rfl, hsus, rfl, fun hd => ?_⟩ hy))
  exact ⟨x, v, rfl, by simpa using hd⟩

theorem poll_micro {e : Event} {st : CoState} (hst : st.resumable) (he : b = e.eintr)
    (hs : s.suspends e = some (.poll st)) (hd : s.deadlineOf e = none)
    (h : s.poll st b = some s') : Steps (Micro D) (May s e) s s' := by
  simp only [St.poll, setState_eq hme, Option.bind_some] at h
  have hk : Suspends (s.inLib c st) c (.poll st) :=
    ⟨hst, by simp [inLib, setCtx, Call.coState], by simp [Call.queue]⟩
  have hy : Micro D (.yield c (.poll st) b) (s.inLib c st) s' := yieldAs_micro rfl hme hk rfl h
  exact .head (may_enterLib hs) (.enterLib (.inl hpc) hst)
    (.one (a := .yield c (.poll st) b) ⟨he, hs, hd⟩ hy)

theorem block_micro {op : Blk} (h : s.block D b op = some s') :
    Chain D s (.block op b) s' := by
  cases op with
  | sleep u v =>
    refine ⟨s, .same rfl, ?_⟩
    simp only [St.block] at h
    split at h
    · exact sleepCall_micro hpc hme rfl rfl rfl h
    · cases h
  | yield => exact ⟨s, .same rfl, sleepCall_micro hpc hme rfl rfl rfl h⟩
  | giveup => exact ⟨s, .same rfl, sleepCall_micro hpc hme rfl rfl rfl h⟩
  | join x =>
    refine ⟨s, .same rfl, ?_⟩
    simp only [St.block] at h
    split at h
    · exact join_micro hpc hme h
    · cases h
  | setInterruptAndJoin x =>
    refine ⟨s, .same rfl, ?_⟩
    simp only [St.block] at h
    split at h
    · exact setInterruptAndJoin_micro hpc hme h
    · cases h
  | setInterruptAndJoinWithTimeout x v =>
    refine ⟨s, .same rfl, ?_⟩
    simp only [St.block] at h
    split at h
    · exact setInterruptAndJoinWithTimeout_micro hpc hme h
    · cases h
  | signalSubscribe g => exact ⟨s, .same rfl, signalSubscribe_micro hpc hme h⟩
  | signalSubscribeWithTimeout g v =>
    refine ⟨s, .same rfl, ?_⟩
    simp only [St.block] at h
    split at h
    · exact signalSubscribeWithTimeout_micro hpc hme h
    · cases h
  | signalErrorAndJoin g v => exact ⟨s, .same rfl, signalErrorAndJoin_micro hpc hme h⟩
  | condWait i => exact ⟨s, .same rfl, condWait_micro (.inl hpc) hme rfl rfl rfl rfl rfl rfl h⟩
  | semaAcquire i => exact ⟨s, .same rfl, semaAcquire_micro hpc hme h⟩
  | isemaWait i => exact ⟨s, .same rfl, isemaWait_micro hpc hme h⟩
  | rwlockAcquireRead i => exact ⟨s, .same rfl, readLoop_micro hme rfl rfl rfl (.inl hpc) h⟩
  | rwlockAcquireWrite i => exact ⟨s, .same rfl, writeLoop_micro hme rfl rfl rfl (.inl hpc) h⟩
  | waitFor v f =>
    simp only [St.block] at h
    split at h
    · exact waitFor_micro hpc hme h
    · cases h
  | peek x v =>
    refine ⟨s, .same rfl, ?_⟩
    simp only [St.block] at h
    split at h
    · exact peek_micro hpc hme h
    · cases h
  | pollRead => exact ⟨s, .same rfl, poll_micro hpc hme rfl rfl rfl rfl h⟩
  | pollWrite => exact ⟨s, .same rfl, poll_micro hpc hme rfl rfl rfl rfl h⟩
  | pollOther => exact ⟨s, .same rfl, poll_micro hpc hme rfl rfl rfl rfl h⟩

end Block

/-! ## From the switch to the return -/

section Cont
variable {b : Bool} {k : Call} (hpc : s.pc = .post c k) (hme : s.me = some c)
include hpc hme

theorem complete_micro {v : Int} {r : Sleepq} {o : Objs}
    (ht : ∀ x n, k.target = some (x, n) → s.gone x n)
    (hq : r = s.sleepq ∨ r = s.sleepq.remove (s.ctx c).expireTicks c)
    (hv : v = 0 → (s.ctx c).rc = 0 ∨ ∃ x n, k.target = some (x, n) ∧ (s.ctx x).rc = 0)
    (h : { s with sleepq := r, objs := o }.complete v = some s') :
    Steps (Micro D) (May s (.cont b)) s s' := by
  obtain ⟨d, hd, rfl⟩ := Option.map_eq_some_iff.1 h
  have hdc : d = c := Option.some.inj (hd.symm.trans hme)
  subst hdc
  simp only [hpc, Pc.call]
  exact .one (a := .complete d k v) ⟨⟨b, rfl⟩, hpc⟩ (.complete r o hpc ht hq hv)

/-- A call without a timed wait returns what `yield` returned. -/
theorem complete_rc (ht : k.target = none) {v : Int} {o : Objs} (hv : v = 0 → (s.ctx c).rc = 0)
    (h : { s with objs := o }.complete v = some s') : Steps (Micro D) (May s (.cont b)) s s' :=
  complete_micro hpc hme (r := s.sleepq) (by simp [ht]) (.inl rfl) (fun h0 => .inl (hv h0)) h

omit hpc hme in
theorem setInterrupt_takenOff (x : Ptr) :
    (s.takenOff q c).setInterrupt D x = (s.setInterrupt D x).map (St.takenOff · q c) := by
  unfold setInterrupt
  by_cases h1 : s.me = some x
  · simp [h1, takenOff]
  · by_cases h2 : (s.ctx x).f = none
    · simp [h1, h2, takenOff]
    · simp only [takenOff, h1, h2, if_false, Option.map_some]
      rfl

omit hpc hme in
theorem removeMe_eq (hme : s.me = some c) : s.removeMe q = some (s.takenOff q c) := by
  simp [removeMe, hme, takenOff]

/-- The way out of a timed wait whose target is still there, once the target
has been dealt with. -/
theorem timeout_micro {x : Ptr} {n : Int} {v : Int} (ht : k.target = some (x, n))
    (hx : ¬ s.gone x n) {s0 : St} (hpc0 : s0.pc = .post c k)
    (h : (s.takenOff (.ctx x) c).complete v = some s') :
    Steps (Micro D) (May s0 (.cont b)) s s' := by
  obtain ⟨d, hd, rfl⟩ := Option.map_eq_some_iff.1 h
  have hdc : d = c := Option.some.inj (hd.symm.trans hme)
  subst hdc
  have hmay : May s0 (.cont b) (.removeMe d (.ctx x)) := ⟨⟨b, rfl⟩, k, hpc0⟩
  exact .head hmay (.removeMe hpc ht hx) (.one may_env (.env s.objs s.now _))

theorem peekEnd_micro {x : Ptr} {n : Int} (hk : k = .peek x n)
    (h : s.peekEnd D c x n = some s') : Steps (Micro D) (May s (.cont b)) s s' := by
  subst hk
  unfold peekEnd at h
  split at h
  · cases h
  · split at h
    · rename_i hg
      refine complete_micro hpc hme (o := s.objs) ?_ (.inr rfl)
        (fun h0 => .inr ⟨x, n, rfl, h0⟩) h
      rintro y m ⟨⟩
      exact hg
    · rename_i hg
      split at h
      · rw [removeMe_eq hme, Option.bind_some] at h
        exact timeout_micro hpc hme rfl hg hpc h
      · cases h

omit hpc hme in
theorem may_timedout {e : Event} (x : Ptr) : May s e (.rc x D.CO_RC_TIMEDOUT) :=
  .inl (D.ne_zero 130 3)

theorem interruptJoinTimeoutEnd_micro {x : Ptr} {n : Int} (hk : k = .interruptJoinTimeout x n)
    (h : s.interruptJoinTimeoutEnd D c x n = some s') :
    Steps (Micro D) (May s (.cont b)) s s' := by
  subst hk
  unfold interruptJoinTimeoutEnd at h
  split at h
  · cases h
  · split at h
    · rename_i hg
      refine complete_micro hpc hme (o := s.objs) ?_ (.inr rfl) ?_ h
      · rintro y m ⟨⟩
        exact hg
      · intro h0
        split at h0
        · exact .inr ⟨x, n, rfl, h0⟩
        · exact .inl h0
    · rename_i hg
      split at h
      · rw [removeMe_eq hme, Option.bind_some] at h
        have hg1 : ¬ (s.setCtx x { s.ctx x with rc := D.CO_RC_TIMEDOUT }).gone x n := by
          simpa [gone, setCtx] using hg
        exact .head (may_timedout x) (.rc x _ (.inr (.inl (not_or.1 hg).2)))
          (timeout_micro (s := s.setCtx x { s.ctx x with rc := D.CO_RC_TIMEDOUT })
            hpc hme rfl hg1 hpc h)
      · cases h

theorem waitForEnd_micro {x : Ptr} {n : Int} (hk : k = .waitFor x n)
    (h : s.waitForEnd D c x n = some s') : Steps (Micro D) (May s (.cont b)) s s' := by
  subst hk
  unfold waitForEnd at h
  split at h
  · cases h
  · split at h
    · rename_i hg
      refine complete_micro hpc hme (o := s.objs) ?_ (.inr rfl)
        (fun h0 => .inr ⟨x, n, rfl, h0⟩) h
      rintro y m ⟨⟩
      exact hg
    · rename_i hg
      split at h
      · rename_i hr
        rw [removeMe_eq hme, Option.bind_some, setInterrupt_takenOff] at h
        obtain ⟨s2, h2, h3⟩ := Option.bind_eq_some_iff.1 h
        obtain ⟨s1, h1, rfl⟩ := Option.map_eq_some_iff.1 h2
        obtain ⟨hpc1, hme1, hcx, hid, hres⟩ := setInterrupt_frame hme h1
        rw [hpc] at hpc1
        -- interrupting the target keeps it there: same id, still resumable
        have hd : (s1.ctx x).state ≠ .dormant := fun h0 => by
          have := hres hr
          rw [h0] at this
          cases this
        have hg1 : ¬ (s1.setCtx x { s1.ctx x with rc := D.CO_RC_TIMEDOUT }).gone x n := by
          simpa [gone, setCtx, hid, hd] using (not_or.1 hg).1
        refine ((setInterrupt_micro h1).mono ?_).trans
          (.head (may_timedout x) (.rc x _ (.inr (.inl hd)))
            (timeout_micro (s := s1.setCtx x { s1.ctx x with rc := D.CO_RC_TIMEDOUT })
              hpc1 hme1 rfl hg1 hpc h3))
        intro a heq
        subst heq
        simpa [May, interrupts, hpc, hg] using mem_notMe h1
      · cases h

theorem cont_micro (h : s.cont D c k b = some s') : Steps (Micro D) (May s (.cont b)) s s' := by
  have hloop : (s.ctx c).rc = 0 → s.pc = .user c ∨
      (s.pc = .post c k ∧ (∃ b', Event.cont b = .cont b') ∧ (s.ctx c).rc = 0) :=
    fun hrc => .inr ⟨hpc, ⟨b, rfl⟩, hrc⟩
  have hsus : k.loops = true → s.suspends (.cont b) = some k := fun hl => by
    simp [suspends, hpc, Pc.call, hl]
  cases k with
  | start => cases h
  | gone => cases h
  | sleep d => exact complete_rc hpc hme rfl id h
  | join x => exact complete_rc hpc hme rfl id h
  | interruptJoin x => exact complete_rc hpc hme rfl id h
  | errorJoin x => exact complete_rc hpc hme rfl id h
  | condWait i => exact complete_rc hpc hme rfl id h
  | poll st =>
    refine complete_rc hpc hme rfl (fun h0 => ?_) h
    split at h0
    · assumption
    · cases h0
  | subscribe g => exact complete_rc hpc hme rfl id h
  | subscribeTimeout g =>
    refine complete_rc hpc hme rfl (fun h0 => ?_) h
    split at h0
    · exact h0
    · exact absurd h0 (D.ne_zero 129 1)
  | semaAcquire i =>
    simp only [cont] at h
    split at h
    · exact complete_rc hpc hme rfl id h
    · exact semaLoop_micro hme rfl rfl (hsus rfl) (hloop (not_not.1 ‹_›)) h
  | isemaWait i =>
    simp only [cont] at h
    split at h
    · exact complete_rc hpc hme rfl id h
    · exact isemaLoop_micro hme rfl rfl (hsus rfl) (hloop (not_not.1 ‹_›)) h
  | readLock i =>
    simp only [cont] at h
    split at h
    · exact complete_rc hpc hme rfl id h
    · exact readLoop_micro hme rfl rfl (hsus rfl) (hloop (not_not.1 ‹_›)) h
  | writeLock i =>
    simp only [cont] at h
    split at h
    · exact complete_rc hpc hme rfl id h
    · exact writeLoop_micro hme rfl rfl (hsus rfl) (hloop (not_not.1 ‹_›)) h
  | interruptJoinTimeout x n => exact interruptJoinTimeoutEnd_micro hpc hme rfl h
  | waitFor x n => exact waitForEnd_micro hpc hme rfl h
  | peek x n => exact peekEnd_micro hpc hme rfl h

end Cont

/-! ## The scheduler -/

theorem exit_micro {b : Bool} (hB : Base s) (hpc : s.pc = .user c)
    (h : s.swapBack c b = some s') : Steps (Micro D) (May s (.exit b)) s s' := by
  have hst : (s.ctx c).state = .resumed := hB.resumed c (.inl hpc)
  unfold swapBack at h
  cases b with
  | true =>
    cases h
    exact .one (a := .quit c) ⟨rfl, hpc⟩ (.quit hpc)
  | false =>
    simp only [Bool.false_eq_true, if_false, hst, CoState.resumable, if_true] at h
    split at h
    · cases h
    · have hmay : May s (.exit false) (.die c) := ⟨rfl, hpc⟩
      refine .head hmay (.die hpc hst)
        ((pushFree_micro (s := { s with me := none, pc := .sched }) h).mono ?_)
      rintro a (⟨t, ht, rfl⟩ | rfl)
      · simp only [May, wakes, hpc, Pc.runs, Option.toList, List.flatMap_cons, List.flatMap_nil,
          List.append_nil]
        exact wakesAll_mem ht
      · trivial

/-- `poller_resume` up to the switch, for a context just picked. -/
theorem pollerResume_micro {e : Event} {poll : Bool} {s0 s1 : St} (hpc : s.pc = .sched)
    (hp : Picked s c poll s1) (hst : (s1.ctx c).state = (s.ctx c).state)
    (hw : s1.wq.queue (.ctx c) = s0.wq.queue (.ctx c))
    (he : May s0 e (.enter c poll)) (hd : May s0 e (.discard c poll))
    (hwake : (s.ctx c).state.resumable = false →
      ∀ t ∈ s0.wq.queue (.ctx c), (.ctx c, t) ∈ s0.wakes e)
    (h : s1.pollerResume c = some s') : Steps (Micro D) (May s0 e) s s' := by
  unfold pollerResume at h
  rw [hst] at h
  split at h
  · rename_i hr
    exact .one he (.enter hpc hp hr h)
  · rename_i hr
    have hr' : (s.ctx c).state.resumable = false := by simpa using hr
    refine .head hd (.discard hpc hp hr') ((pushFree_micro h).mono ?_)
    rintro a (⟨t, ht, rfl⟩ | rfl)
    · exact hwake hr' t (hw ▸ ht)
    · trivial

theorem next_micro (h : s.next = some s') : Steps (Micro D) (May s .next) s s' := by
  unfold next at h
  split at h
  · cases h
  · rename_i hpc
    have hpc' : s.pc = .sched := not_not.1 hpc
    have hwake : ∀ x, s.nextPick = some x → (s.ctx x).state.resumable = false →
        ∀ t ∈ s.wq.queue (.ctx x), (.ctx x, t) ∈ s.wakes .next := by
      intro x hx hr t ht
      simp only [wakes, hx, Option.toList, List.flatMap_cons, List.flatMap_nil, List.append_nil,
        hr, Bool.false_eq_true, if_false]
      exact wakesAll_mem ht
    split at h
    · rename_i x rest htmp
      split at h
      · rename_i hx
        have hn : s.nextPick = some x := by simp [nextPick, htmp]
        exact pollerResume_micro hpc' (.tmp hx htmp) (by simp [popTmp, clearExpire, setCtx]) rfl
          ⟨rfl, hn⟩ ⟨rfl, hn⟩ (hwake x hn) h
      · cases h
    · rename_i x rest htmp hrun
      split at h
      · rename_i hx
        have hn : s.nextPick = some x := by simp [nextPick, htmp, hrun]
        exact pollerResume_micro hpc' (.runq hx htmp hrun) (by simp [popRunq, clearExpire, setCtx])
          rfl ⟨rfl, hn⟩ ⟨rfl, hn⟩ (hwake x hn) h
      · cases h
    · cases h

theorem pollResume_micro {rc : Option Int} (h : s.pollResume c rc = some s') :
    Steps (Micro D) (May s (.pollResume c rc)) s s' := by
  unfold pollResume at h
  split at h
  · rename_i hpc
    split at h
    · cases h; exact .refl _
    · rename_i hf
      have hwake : (s.ctx c).state.resumable = false →
          ∀ t ∈ s.wq.queue (.ctx c), (Waitq.ctx c, t) ∈ s.wakes (.pollResume c rc) := by
        intro hr t ht
        simp only [wakes, hr, Bool.false_eq_true, if_false]
        exact wakesAll_mem ht
      cases rc with
      | none =>
        exact pollerResume_micro hpc.1 (.poll hpc.2 hf) rfl rfl ⟨_, rfl, hf⟩ ⟨_, rfl, hf⟩ hwake h
      | some v =>
        have hmay : May s (.pollResume c (some v)) (.rc c v) := .inr (List.mem_singleton.2 rfl)
        refine .head hmay (.rc c v (.inl hf)) ?_
        refine pollerResume_micro (s := s.setCtx c { s.ctx c with rc := v }) hpc.1
          (.poll hpc.2 (by simpa [setCtx] using hf)) rfl rfl ⟨_, rfl, hf⟩ ⟨_, rfl, hf⟩
          (fun hr => ?_) h
        exact hwake (by simpa [setCtx] using hr)
  · cases h

theorem pollFast_micro (h : s.pollFast c = some s') :
    Steps (Micro D) (May s (.pollFast c)) s s' := by
  unfold pollFast at h
  split at h
  · rename_i hpc
    unfold setResumeFast at h
    split at h
    · cases h
    · split at h
      · cases h; exact .refl _
      · rename_i hf
        split at h
        · cases h
        · cases h
          exact .one (a := .resumeFast c) rfl
            (.resumeFast hpc.1 hf hpc.2.2)
  · cases h

/-- Every step is a chain of micro-steps within the footprint of its event. -/
theorem step_micro {e : Event} (hB : Base s) (h : s.step D e = some s') : Chain D s e s' := by
  cases e with
  | call op =>
    simp only [step] at h
    split at h
    · exact callOp_micro h
    · cases h
  | block op b =>
    simp only [step] at h
    split at h
    · rename_i x hpc
      split at h
      · exact block_micro hpc (hB.me x (by rw [hpc]; rfl)) h
      · cases h
    · cases h
  | cont b =>
    simp only [step] at h
    split at h
    · rename_i x k hpc
      split at h
      · exact ⟨s, .same rfl, cont_micro hpc (hB.me x (by rw [hpc]; rfl)) h⟩
      · cases h
    · cases h
  | exit b =>
    simp only [step] at h
    split at h
    · rename_i x hpc
      split at h
      · exact ⟨s, .same rfl, exit_micro hB hpc h⟩
      · cases h
    · cases h
  | sift => exact ⟨s, .same rfl, .one (a := .sift) rfl (.sift h)⟩
  | next => exact ⟨s, .same rfl, next_micro h⟩
  | tick v =>
    simp only [step] at h
    split at h
    · cases h; exact ⟨s, .same rfl, .one (a := .env) trivial (.env s.objs v s.ret)⟩
    · cases h
  | pollResume x rc => exact ⟨s, .same rfl, pollResume_micro h⟩
  | pollFast x => exact ⟨s, .same rfl, pollFast_micro h⟩

end
end Mnthr

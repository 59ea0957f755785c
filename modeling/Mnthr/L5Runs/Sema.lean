import Mnthr.L4Inv.Locks

/-!
# Semaphores

`sema_safe`: in every run in which a thread releases a semaphore only when it
holds a unit of it, the units on the semaphore and the units held add up to its
size, an acquire that fails takes none, and no assertion of the acquire and
release functions fails. Interrupts, spurious resumes and every other call of
the library may come at any time.

`sema_progress`: without interrupts and timed waits, as long as a thread waits
for a semaphore, at least as many threads are on their way to test it again as
there are units on it; so no unit is stranded.
-/
namespace Mnthr
open St

section
variable {D : Diag} {s s' : St} {e : Event} {i : Nat}

/-! ## One semaphore -/

/-- What an event does to semaphore `i`. -/
theorem sema_step (h : StepEffect s e s') (he : e ≠ .call (.semaFini i)) :
    s'.objs.semaN i = s.objs.semaN i ∧
    ((s.granted e s' = some (.sema i) ∧ 0 < s.objs.semaI i ∧
        s'.objs.semaI i = s.objs.semaI i - 1) ∨
      (s.granted e s' = none ∧ e.gives = some (.sema i) ∧
        (0 ≤ s.objs.semaI i ∧ s.objs.semaI i < s.objs.semaN i) ∧
        s'.objs.semaI i = s.objs.semaI i + 1) ∨
      (s.granted e s' ≠ some (.sema i) ∧ e.gives ≠ some (.sema i) ∧
        s'.objs.semaI i = s.objs.semaI i)) := by
  have still : s.granted e s' = none → e.gives = none → s'.objs.semaI = s.objs.semaI →
      s.granted e s' ≠ some (.sema i) ∧ e.gives ≠ some (.sema i) ∧
        s'.objs.semaI i = s.objs.semaI i := by
    intro h1 h2 h3
    simp [h1, h2, h3]
  cases h.objs with
  | same hg hv ho => exact ⟨by rw [ho], .inr (.inr (still hg hv (by rw [ho])))⟩
  | @grant g hg hv hf ho =>
    cases g with
    | sema j =>
      refine ⟨by rw [ho]; rfl, ?_⟩
      by_cases hj : j = i
      · subst hj
        exact .inl ⟨hg, hf, by rw [ho]; simp [Objs.grant, Objs.setSemaI]⟩
      · refine .inr (.inr ⟨by simpa [hg] using hj, by simp [hv], ?_⟩)
        rw [ho]
        simp [Objs.grant, Objs.setSemaI, Ne.symm hj]
    | read j | write j =>
      exact ⟨by rw [ho]; rfl, .inr (.inr ⟨by simp [hg], by simp [hv], by rw [ho]; rfl⟩)⟩
  | @give g hg hv ha ho =>
    cases g with
    | sema j =>
      refine ⟨by rw [ho]; rfl, ?_⟩
      by_cases hj : j = i
      · subst hj
        exact .inr (.inl ⟨hg, hv, ha, by rw [ho]; simp [Objs.give, Objs.setSemaI]⟩)
      · refine .inr (.inr ⟨by simp [hg], by simpa [hv] using hj, ?_⟩)
        rw [ho]
        simp [Objs.give, Objs.setSemaI, Ne.symm hj]
    | read j | write j =>
      exact ⟨by rw [ho]; rfl, .inr (.inr ⟨by simp [hg], by simp [hv], by rw [ho]; rfl⟩)⟩
  | owner hg hv ho => exact ⟨by rw [ho]; rfl, .inr (.inr (still hg hv (by rw [ho]; rfl)))⟩
  | isemaAcquire he' ha ho =>
    subst he'
    exact ⟨by rw [ho]; rfl, .inr (.inr (still (granted_of_asks rfl) rfl (by rw [ho]; rfl)))⟩
  | isemaRelease he' ho | isemaFini he' ho | rwlockFini he' ho =>
    subst he'
    exact ⟨by rw [ho]; rfl, .inr (.inr (still (granted_of_asks rfl) rfl (by rw [ho]; rfl)))⟩
  | @semaFini j he' ho =>
    subst he'
    have hj : i ≠ j := by
      intro hx
      exact he (by rw [hx])
    refine ⟨by rw [ho]; simp [Objs.semaFini, hj], .inr (.inr ⟨?_, by simp [Event.gives], ?_⟩)⟩
    · rw [granted_of_asks rfl]
      simp
    · rw [ho]
      simp [Objs.semaFini, hj]

/-- A thread releases semaphore `i` only when it holds a unit of it, and nobody
finalizes it. -/
def SemaUse (i : Nat) (p : St × List (Option Ptr × Grant)) (e : Event) : Prop :=
  (e.gives = some (.sema i) → (p.1.me, .sema i) ∈ p.2) ∧ e ≠ .call (.semaFini i)

instance (p : St × List (Option Ptr × Grant)) (e : Event) : Decidable (SemaUse i p e) := by
  unfold SemaUse; infer_instance

structure Units (i : Nat) (n : Int) (p : St × List (Option Ptr × Grant)) : Prop where
  size : p.1.objs.semaN i = n
  nonneg : 0 ≤ p.1.objs.semaI i
  units : p.1.objs.semaI i + held (.sema i) p.2 = n

theorem units_step {n : Int} {p p' : St × List (Option Ptr × Grant)} (hI : Inv p.1)
    (h : Units i n p) (hu : SemaUse i p e) (hs : ledger D p e = some p') : Units i n p' := by
  obtain ⟨hstep, hbook⟩ := recorded_step hs
  obtain ⟨hN, hcase⟩ := sema_step (step_effect hI.base hstep) hu.2
  have hunits := h.units
  have hnn := h.nonneg
  rcases hcase with ⟨hg, hpos, hi⟩ | ⟨hg, hv, -, hi⟩ | ⟨hg, hv, hi⟩
  · refine ⟨hN.trans h.size, by omega, ?_⟩
    rw [hbook, book_granted hg, held_cons, if_pos rfl, hi]
    omega
  · have hm := held_erase (g := .sema i) (hu.1 hv)
    rw [if_pos rfl] at hm
    refine ⟨hN.trans h.size, by omega, ?_⟩
    rw [hbook, book_gives hg hv, hi]
    omega
  · refine ⟨hN.trans h.size, by omega, ?_⟩
    rw [hbook, held_book_ne hg hv, hi]
    exact hunits

end

/-! ## Runs -/

/-- Semaphore `i` of size `n`, with the ledger `l`: the count is in range, what
is on the semaphore and what is held add up, the assertion behind the wait loop
of `mnthr_sema_acquire` and that of `mnthr_sema_release` hold wherever they are
reached, and an acquire that does not return 0 leaves the count alone. -/
structure SemaSafe (D : Diag) (i : Nat) (n : Int) (s : St) (l : List (Option Ptr × Grant)) :
    Prop where
  range : 0 ≤ s.objs.semaI i ∧ s.objs.semaI i ≤ n
  units : s.objs.semaI i + held (.sema i) l = n
  acquire : s.objs.semaI i ≠ 0 → 0 < s.objs.semaI i ∧ s.objs.semaI i ≤ s.objs.semaN i
  release : (s.me, .sema i) ∈ l → 0 ≤ s.objs.semaI i ∧ s.objs.semaI i < s.objs.semaN i
  failed : ∀ e s', s.step D e = some s' → s.asks e = some (.sema i) → s.granted e s' = none →
    s'.objs.semaI i = s.objs.semaI i

theorem sema_safe {D : Diag} {objs : Objs} {now i : Nat} {es : List Event} {s : St}
    {l : List (Option Ptr × Grant)} (hinit : objs.semaI i = objs.semaN i) (h0 : 0 ≤ objs.semaN i)
    (hr : exec (ledger D) (St.init objs now, []) es = some (s, l))
    (hc : Along (ledger D) (SemaUse i) (St.init objs now, []) es) :
    SemaSafe D i (objs.semaN i) s l := by
  have hstart : Units i (objs.semaN i) (St.init objs now, []) :=
    ⟨rfl, by simpa [St.init, hinit] using h0, by simp [St.init, held, hinit]⟩
  obtain ⟨hI, hU⟩ := exec_inv (I := fun p => Inv p.1 ∧ Units i (objs.semaN i) p)
    (fun p e p' hp hu hs => ⟨inv_step hp.1 (recorded_step hs).1, units_step hp.1 hp.2 hu hs⟩)
    ⟨inv_init objs now, hstart⟩ hc hr
  obtain ⟨hsize, hnn, hunits⟩ := hU
  have hsize : s.objs.semaN i = objs.semaN i := hsize
  have hnn : 0 ≤ s.objs.semaI i := hnn
  have hunits : s.objs.semaI i + held (.sema i) l = objs.semaN i := hunits
  refine ⟨⟨hnn, by omega⟩, hunits, fun hne => ⟨by omega, by omega⟩, fun hm => ?_, ?_⟩
  · have := held_pos hm
    exact ⟨hnn, by omega⟩
  · intro e s' hs ha hg
    have hfini : e ≠ .call (.semaFini i) := by intro heq; subst heq; cases ha
    rcases (sema_step (step_effect hI.base hs) hfini).2 with ⟨hg', -, -⟩ | ⟨-, hv, -, -⟩ | ⟨-, -, hi⟩
    · rw [hg] at hg'; cases hg'
    · rw [gives_of_asks ha] at hv; cases hv
    · exact hi

/-- Thread 0 takes the unit, thread 1 waits for it and is interrupted; the unit
is released, and thread 1 gets an error instead of it. -/
def interruptedAcquire : List Event :=
  [.call (.spawn 0), .call (.spawn 0), .tick 10, .sift, .next, .block (.semaAcquire 0) false,
    .block .yield false, .next, .block (.semaAcquire 0) false, .sift, .next, .cont false,
    .call (.setInterrupt 1), .call (.semaRelease 0), .block (.sleep .msec 5) false, .sift, .next,
    .cont false]

theorem sema_safe_interruptedAcquire : ∃ s l,
    exec (ledger .sample) (St.init .sample 0, []) interruptedAcquire = some (s, l) ∧
    s.ret = some ⟨some 1, some (.semaAcquire 0), Diag.sample.CO_RC_USER_INTERRUPTED⟩ ∧
    SemaSafe .sample 0 1 s l := by
  obtain ⟨⟨s, l⟩, hs⟩ := Option.isSome_iff_exists.1
    (show (exec (ledger .sample) (St.init .sample 0, []) interruptedAcquire).isSome by decide)
  refine ⟨s, l, hs, fact_of_map hs (f := fun p => p.1.ret) (by decide), ?_⟩
  exact sema_safe rfl (by decide) hs (along_of_decide (by decide))

/-! ## Progress -/

section
variable {D : Diag} {s s' : St} {e : Event} {i : Nat}

theorem gives_sema (h : e.gives = some (.sema i)) : e = .call (.semaRelease i) := by
  unfold Event.gives at h
  split at h
  · cases h; rfl
  all_goals cases h

theorem wants_of_queue {k : Call} (h : k.queue = some (.sema i)) : k.wants = some (.sema i) := by
  cases k <;> cases h
  rfl

theorem semaRelease_queue {t : Ptr} {rest : List Ptr}
    (h : s.step D (.call (.semaRelease i)) = some s') (hq : s.wq.queue (.sema i) = t :: rest) :
    s'.wq.queue (.sema i) = rest := by
  simp only [step, callOp, St.semaRelease] at h
  split at h
  · split at h
    · obtain ⟨s1, h1, rfl⟩ := Option.map_eq_some_iff.1 h
      exact (resumeWaitqOne_queue h1 hq : s1.wq.queue (.sema i) = rest)
    · cases h
  · cases h

/-- A thread enters the queue only of an empty semaphore. -/
theorem sema_joins (hI : UntimedInv s) (hp : Untimed s e) (hs : s.step D e = some s')
    (h : s'.wq.queue (.sema i) ≠ []) : s.wq.queue (.sema i) ≠ [] ∨ s'.objs.semaI i = 0 := by
  obtain ⟨t, ht⟩ := List.exists_mem_of_ne_nil _ h
  rcases joins_busy hI hp hs (fun k hk => ⟨_, wants_of_queue hk⟩) ht with ht | ⟨g, k, b, hw, hk, hb, rfl⟩
  · exact .inl (List.ne_nil_of_mem ht)
  · rw [wants_of_queue hk] at hw
    cases hw
    exact .inr hb

/-- A unit that comes back wakes a waiter, and a waiter that goes on takes one. -/
theorem enough_step {p p' : St × List Ptr} (h : LockInv (.sema i) p) (hp : Untimed p.1 e)
    (hn : p.1.wq.queue (.sema i) ≠ [] → p.1.objs.semaI i ≤ p.2.length)
    (hs : signals D (.sema i) p e = some p') (hne : p'.1.wq.queue (.sema i) ≠ []) :
    p'.1.objs.semaI i ≤ p'.2.length := by
  have hI := h.signalled.inv
  have hstep := (recorded_step hs).1
  have hfini : e ≠ .call (.semaFini i) := by intro heq; subst heq; cases hp.1
  obtain ⟨-, hcase⟩ := sema_step (step_effect hI.inv.base hstep) hfini
  rcases sema_joins hI hp hstep hne with hq | h0
  swap
  · omega
  have hle := hn hq
  rcases signals_cases hs with ⟨b, t, k, rfl, hpc, hk, hP⟩ | ⟨b, t, k, rfl, hpc, hk, hP⟩ | ⟨-, hP⟩
  · have hlen : p.2.length - 1 ≤ p'.2.length := by
      rw [hP]
      exact List.le_length_erase
    rcases retest h hpc (wants_of_queue hk) hs with ⟨hg, -⟩ | ⟨hb, ho⟩
    · rcases hcase with ⟨-, -, hi⟩ | ⟨hg', -⟩ | ⟨hg', -⟩
      · omega
      · rw [hg] at hg'; cases hg'
      · exact absurd hg hg'
    · have : p.1.objs.semaI i = 0 := hb
      rw [ho]
      omega
  · rw [hP]
    rcases hcase with ⟨-, -, hi⟩ | ⟨-, hv, -⟩ | ⟨-, -, hi⟩
    · omega
    · cases hv
    · omega
  · have hlen : p.2.length ≤ p'.2.length := by
      rw [hP, List.length_append]
      omega
    rcases hcase with ⟨-, -, hi⟩ | ⟨-, hv, -, hi⟩ | ⟨-, -, hi⟩
    · omega
    · obtain ⟨t, rest, hq⟩ := List.exists_cons_of_ne_nil hq
      have he := gives_sema hv
      subst he
      have hnd := hI.tidy.ok.nodup (.sema i)
      rw [hq] at hnd
      have hlen : p.2.length + 1 ≤ p'.2.length := by
        rw [hP, List.length_append, hq, semaRelease_queue hstep hq, List.filter_cons_of_pos]
        · rw [List.length_cons]; omega
        · simpa using (List.nodup_cons.1 hnd).1
      omega
    · omega

end

/-- The threads `l` were taken off the wait queue of semaphore `i` and have yet
to test it again; each is named once. -/
structure SemaProgress (i : Nat) (s : St) (l : List Ptr) : Prop where
  nodup : l.Nodup
  pending : ∀ t ∈ l, Signalled (.sema i) s t
  enough : s.wq.queue (.sema i) ≠ [] → s.objs.semaI i ≤ l.length
  stranded : s.wq.queue (.sema i) ≠ [] → 0 < s.objs.semaI i → l ≠ []

theorem sema_progress {D : Diag} {objs : Objs} {now i : Nat} {es : List Event} {s : St}
    {l : List Ptr} (hr : exec (signals D (.sema i)) (St.init objs now, []) es = some (s, l))
    (hc : Along (St.step D) Untimed (St.init objs now) es) : SemaProgress i s l := by
  obtain ⟨h, hn⟩ := exec_inv (I := fun p => LockInv (.sema i) p ∧
      (p.1.wq.queue (.sema i) ≠ [] → p.1.objs.semaI i ≤ p.2.length))
    (fun p e p' hp hu hs => ⟨lockInv_step hp.1 hu hs, enough_step hp.1 hu hp.2 hs⟩)
    ⟨lockInv_init objs now _, fun h => absurd rfl h⟩
    ((along_recorded (p := (St.init objs now, []))).1 hc) hr
  have hn : s.wq.queue (.sema i) ≠ [] → s.objs.semaI i ≤ l.length := hn
  refine ⟨h.signalled.nodup, h.signalled.all, hn, ?_⟩
  intro hq hpos heq
  subst heq
  have := hn hq
  simp only [List.length_nil] at this
  omega

/-- Thread 0 takes the unit, threads 1 and 2 wait for it, thread 0 releases it:
thread 1 is on its way, thread 2 still waits. -/
def releasedUnit : List Event :=
  [.call (.spawn 0), .call (.spawn 0), .call (.spawn 0), .tick 10, .sift, .next,
    .block (.semaAcquire 0) false, .block .yield false, .next, .block (.semaAcquire 0) false, .next,
    .block (.semaAcquire 0) false, .sift, .next, .cont false, .call (.semaRelease 0)]

theorem sema_progress_releasedUnit : ∃ s l,
    exec (signals .sample (.sema 0)) (St.init .sample 0, []) releasedUnit = some (s, l) ∧
    s.wq.queue (.sema 0) = [2] ∧ s.objs.semaI 0 = 1 ∧ l = [1] ∧ SemaProgress 0 s l := by
  obtain ⟨⟨s, l⟩, hs⟩ := Option.isSome_iff_exists.1
    (show (exec (signals .sample (.sema 0)) (St.init .sample 0, []) releasedUnit).isSome by decide)
  refine ⟨s, l, hs, fact_of_map hs (f := fun p => p.1.wq.queue (.sema 0)) (by decide),
    fact_of_map hs (f := fun p => p.1.objs.semaI 0) (by decide),
    fact_of_map hs (f := fun p => p.2) (by decide), ?_⟩
  exact sema_progress hs (along_of_decide (by decide))

end Mnthr

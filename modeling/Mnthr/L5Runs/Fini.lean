import Mnthr.L4Inv.Locks
import Mnthr.L4Inv.Target

/-!
# Finalizing a semaphore or a lock that is waited for

`mnthr_sema_fini` and `mnthr_rwlock_fini` wake all waiters with their `co.rc`
left alone, and overwrite the fields that the wait loops test. A woken thread
with `co.rc` 0 looks at the finalized object: a semaphore has `i == -1`, which
ends the loop and fails the assertion behind it; a lock is free.
`fini_gets_nothing_iff`: a woken thread comes away empty-handed exactly when its
`co.rc` says so, or the lock is in use again.
-/
namespace Mnthr
open St

/-- The wait queue that the event empties for good. -/
def Event.finalizes : Event → Option Waitq
  | .call (.semaFini i) => some (.sema i)
  | .call (.rwlockFini i) => some (.rwlock i)
  | _ => none

namespace St

/-- The threads that a fini has woken in an acquire function, with the call, until
the call returns. -/
def finiWoken (s : St) (e : Event) (s' : St) (l : List (Ptr × Call)) : List (Ptr × Call) :=
  match e.finalizes with
  | some q => l ++ ((s.wq.queue q).filter fun t => (s.ctx t).uc.queue == some q).map
      fun t => (t, (s.ctx t).uc)
  | none =>
    match e, s'.pc with
    | .cont _, .user t => l.filter fun x => x.1 != t
    | _, _ => l

end St

/-- What the acquire functions assert behind their wait loops (src/mnthr.c:2439,
2564, 2612). -/
def Objs.asserted (o : Objs) : Grant → Prop
  | .sema i => 0 < o.semaI i ∧ o.semaI i ≤ o.semaN i
  | .read i => o.fwriter i = false
  | .write i => ¬ (o.fwriter i = true ∨ 0 < o.nreaders i)

/-- Thread `t`, in the rest `k` of an acquire function, does not return 0 from it,
and fails no assertion. -/
structure GetsNothing (D : Diag) (s : St) (t : Ptr) (k : Call) : Prop where
  grant : ∀ b s', s.step D (.cont b) = some s' → s.granted (.cont b) s' = none
  assertion : ∀ g, k.wants = some g → (s.ctx t).rc = 0 → ¬ s.objs.busy g → s.objs.asserted g

section
variable {D : Diag} {s s' : St} {e : Event} {t : Ptr} {k : Call} {g : Grant} {i : Nat}
  {p p' : St × List (Ptr × Call)}

/-- Nothing brings a finalized semaphore back. -/
theorem finalized_stays (h : StepEffect s e s') (h1 : s.objs.semaI i = -1) :
    s'.objs.semaI i = -1 := by
  cases h.objs with
  | same hg hv ho => rw [ho, h1]
  | @grant g hg hv hf ho =>
    rw [ho]
    cases g with
    | sema j =>
      by_cases hj : i = j
      · subst hj
        simp only [Objs.free] at hf
        omega
      · simp [Objs.grant, Objs.setSemaI, hj, h1]
    | read j | write j => exact h1
  | @give g hg hv ha ho =>
    rw [ho]
    cases g with
    | sema j =>
      by_cases hj : i = j
      · subst hj
        simp only [Objs.givable] at ha
        omega
      · simp [Objs.give, Objs.setSemaI, hj, h1]
    | read j | write j => exact h1
  | owner hg hv ho => rw [ho]; exact h1
  | isemaAcquire he ha ho => rw [ho]; exact h1
  | isemaRelease he ho | isemaFini he ho | rwlockFini he ho => rw [ho]; exact h1
  | @semaFini j he ho =>
    rw [ho]
    by_cases hj : i = j
    · simp [Objs.semaFini, hj]
    · simp [Objs.semaFini, hj, h1]

theorem semaFini_overwrites (hs : s.step D (.call (.semaFini i)) = some s') :
    s'.objs.semaI i = -1 := by
  simp only [step, callOp] at hs
  split at hs
  · obtain ⟨s1, -, rfl⟩ := Option.map_eq_some_iff.1 hs
    simp [Objs.semaFini]
  · cases hs

/-- Whoever was woken in a semaphore finds it finalized. -/
def Overwritten (p : St × List (Ptr × Call)) : Prop :=
  ∀ t i, (t, Call.semaAcquire i) ∈ p.2 → p.1.objs.semaI i = -1

/-- The woken threads are in acquire functions. -/
def Acquiring (p : St × List (Ptr × Call)) : Prop := ∀ x ∈ p.2, ∃ g, x.2.wants = some g

theorem wants_of_finalizes {q : Waitq} (he : e.finalizes = some q) (hk : k.queue = some q) :
    ∃ g, k.wants = some g := by
  unfold Event.finalizes at he
  split at he
  · cases he
    cases k <;> cases hk
    exact ⟨_, rfl⟩
  · cases he
    cases k <;> cases hk <;> exact ⟨_, rfl⟩
  · cases he

theorem acquiring_step (h : Acquiring p) (hs : recorded (St.step D) finiWoken p e = some p') :
    Acquiring p' := by
  obtain ⟨-, hg⟩ := recorded_step hs
  intro x hx
  rw [hg] at hx
  unfold finiWoken at hx
  split at hx
  · rename_i q hq
    rcases List.mem_append.1 hx with hx | hx
    · exact h x hx
    · obtain ⟨t, ht, rfl⟩ := List.mem_map.1 hx
      exact wants_of_finalizes hq (by simpa using (List.mem_filter.1 ht).2)
  · split at hx
    · exact h x (List.mem_filter.1 hx).1
    · exact h x hx

theorem overwritten_step (hI : Inv p.1) (h : Overwritten p)
    (hs : recorded (St.step D) finiWoken p e = some p') : Overwritten p' := by
  obtain ⟨hstep, hg⟩ := recorded_step hs
  have heff := step_effect hI.base hstep
  intro t i hx
  rw [hg] at hx
  unfold finiWoken at hx
  split at hx
  · rename_i q hq
    rcases List.mem_append.1 hx with hx | hx
    · exact finalized_stays heff (h t i hx)
    · obtain ⟨u, hu, heq⟩ := List.mem_map.1 hx
      have hk : (p.1.ctx u).uc = .semaAcquire i := congrArg Prod.snd heq
      have hqueue : (p.1.ctx u).uc.queue = some q := by simpa using (List.mem_filter.1 hu).2
      rw [hk] at hqueue
      cases hqueue
      -- the event is the fini of this semaphore
      obtain rfl : e = .call (.semaFini i) := by
        unfold Event.finalizes at hq
        split at hq <;> cases hq
        rfl
      exact semaFini_overwrites hstep
  · split at hx
    · exact finalized_stays heff (h t i (List.mem_filter.1 hx).1)
    · exact finalized_stays heff (h t i hx)

/-! ## The rest of an acquire function -/

/-- A call that returns a code gets nothing. -/
theorem granted_of_complete {v : Int} {b : Bool} (hv : v ≠ 0) (h : s.complete v = some s') :
    s.granted (.cont b) s' = none := by
  obtain ⟨c, -, rfl⟩ := Option.map_eq_some_iff.1 h
  simp [granted, hv]

/-- Nor does one that waits again. -/
theorem granted_of_condWait {q : Waitq} {b b' : Bool} (hme : s.me = some t)
    (h : s.condWait q k b = some s') : s.granted (.cont b') s' = none := by
  rw [condWait_eq hme h]
  simp [granted, Event.returned, parked]

/-- A thread whose `co.rc` is set, or that finds the lock in use. -/
def Excused (s : St) (t : Ptr) (k : Call) : Prop :=
  (s.ctx t).rc ≠ 0 ∨ ∃ i, (k = .readLock i ∧ s.objs.fwriter i = true) ∨
    (k = .writeLock i ∧ (s.objs.fwriter i = true ∨ 0 < s.objs.nreaders i))

theorem getsNothing_of_excused (hI : Inv s) (hpc : s.pc = .post t k) (hw : k.wants = some g)
    (h : Excused s t k) : GetsNothing D s t k := by
  have hme := hI.me t (by rw [hpc]; rfl)
  refine ⟨fun b s' hs => ?_, fun g' hg' hrc hfree => ?_⟩
  · simp only [step, hpc] at hs
    split at hs
    · by_cases hrc : (s.ctx t).rc = 0
      · obtain ⟨i, ⟨rfl, hf⟩ | ⟨rfl, hf⟩⟩ := h.resolve_left (not_not.2 hrc)
        · simp only [cont, hrc, ne_eq, not_true_eq_false, if_false, readLoop, hf, if_true] at hs
          exact granted_of_condWait hme hs
        · simp only [cont, hrc, ne_eq, not_true_eq_false, if_false, writeLoop, hf, if_true] at hs
          exact granted_of_condWait hme hs
      · cases k <;> cases hw <;> simp only [cont, hrc, ne_eq, not_false_eq_true, if_true] at hs <;>
          exact granted_of_complete hrc hs
    · cases hs
  · obtain ⟨i, ⟨rfl, hf⟩ | ⟨rfl, hf⟩⟩ := h.resolve_left (not_not.2 hrc) <;> cases hg' <;>
      exact absurd hf hfree

/-- Otherwise it gets the lock, or fails the assertion of the semaphore. -/
theorem excused_of_getsNothing (hI : Inv s) (hA : Alloc s) (hpc : s.pc = .post t k)
    (hw : k.wants = some g) (hsema : ∀ i, k = .semaAcquire i → s.objs.semaI i = -1)
    (h : GetsNothing D s t k) : Excused s t k := by
  have hme := hI.me t (by rw [hpc]; rfl)
  have halloc := hA.run t (by rw [hpc]; rfl)
  by_contra hno
  obtain ⟨hrc, hlock⟩ := not_or.1 hno
  rw [not_not] at hrc
  simp only [not_exists, not_or, not_and] at hlock
  cases k with
  | semaAcquire i =>
    have h1 := hsema i rfl
    have := h.assertion (.sema i) rfl hrc (by simp only [Objs.busy]; omega)
    simp only [Objs.asserted] at this
    omega
  | readLock i =>
    have hf : s.objs.fwriter i = false := Bool.eq_false_of_not_eq_true ((hlock i).1 rfl)
    have := h.grant false _ (by
      simp only [step, hpc, halloc, if_true, cont, hrc, ne_eq, not_true_eq_false, if_false,
        readLoop, hf, Bool.false_eq_true, complete, hme, Option.map_some]
      rfl)
    simp [granted, Event.returned, asks, hpc, Pc.call, Call.wants] at this
  | writeLock i =>
    obtain ⟨hf, hn⟩ := (hlock i).2 rfl
    have hf : s.objs.fwriter i = false := Bool.eq_false_of_not_eq_true hf
    have := h.grant false _ (by
      simp only [step, hpc, halloc, if_true, cont, hrc, ne_eq, not_true_eq_false, if_false,
        writeLoop, hf, hn, Bool.false_eq_true, or_self, complete, hme, Option.map_some]
      rfl)
    simp [granted, Event.returned, asks, hpc, Pc.call, Call.wants] at this
  | _ => cases hw

end

/-- In every run, wherever a thread goes on that a fini has woken in an acquire
function: it neither returns 0 nor fails an assertion exactly when its `co.rc`
is set, or it finds the lock in use. -/
theorem fini_gets_nothing_iff (D : Diag) (objs : Objs) (now : Nat) (es : List Event)
    (p : St × List (Ptr × Call))
    (hr : exec (recorded (St.step D) finiWoken) (St.init objs now, []) es = some p) (t : Ptr)
    (k : Call) (hpc : p.1.pc = .post t k) (hw : (t, k) ∈ p.2) :
    GetsNothing D p.1 t k ↔ Excused p.1 t k := by
  have hreach : Reaches D objs now es p.1 := exec_recorded hr
  obtain ⟨-, hO, hA⟩ := exec_inv
    (I := fun p : St × List (Ptr × Call) => Inv p.1 ∧ Overwritten p ∧ Acquiring p)
    (C := fun _ _ => True)
    (fun q e q' hq _ hs => ⟨inv_step hq.1 (recorded_step hs).1, overwritten_step hq.1 hq.2.1 hs,
      acquiring_step hq.2.2 hs⟩)
    ⟨inv_init objs now, fun _ _ h => (by cases h), fun _ h => (by cases h)⟩
    (along_of_forall fun _ _ => trivial) hr
  obtain ⟨g, hg⟩ := hA (t, k) hw
  constructor
  · exact excused_of_getsNothing hreach.inv hreach.alloc hpc hg fun i hk => hO t i (hk ▸ hw)
  · exact getsNothing_of_excused hreach.inv hpc hg

/-- Thread 0 takes an object, thread 1 waits for it, thread 0 finalizes it and
sleeps, and thread 1 is resumed. -/
def finiRun (take wait : Blk) (fini : List Op) : List Event :=
  [.call (.spawn 0), .call (.spawn 0), .tick 10, .sift, .next, .block take false,
    .block .yield false, .next, .block wait false, .sift, .next, .cont false] ++ fini.map .call ++
    [.block (.sleep .msec 5) false, .sift, .next]

/-- With `co.rc` 0, the waiter of the semaphore fails the assertion, and that of
the lock returns 0. -/
theorem fini_grants :
    (∃ p, exec (recorded (St.step .sample) finiWoken) (St.init .sample 0, [])
        (finiRun (.semaAcquire 0) (.semaAcquire 0) [.semaFini 0]) = some p ∧
      p.1.pc = .post 1 (.semaAcquire 0) ∧ p.2 = [(1, .semaAcquire 0)] ∧
      (p.1.step .sample (.cont false)).isNone ∧ ¬ GetsNothing .sample p.1 1 (.semaAcquire 0)) ∧
    ∃ p s', exec (recorded (St.step .sample) finiWoken) (St.init .sample 0, [])
        (finiRun (.rwlockAcquireWrite 0) (.rwlockAcquireRead 0) [.rwlockFini 0]) = some p ∧
      p.1.pc = .post 1 (.readLock 0) ∧ p.2 = [(1, .readLock 0)] ∧
      p.1.step .sample (.cont false) = some s' ∧ s'.ret = some ⟨some 1, some (.readLock 0), 0⟩ ∧
      ¬ GetsNothing .sample p.1 1 (.readLock 0) := by
  constructor
  · obtain ⟨p, hp⟩ := Option.isSome_iff_exists.1
      (show (exec (recorded (St.step .sample) finiWoken) (St.init .sample 0, [])
        (finiRun (.semaAcquire 0) (.semaAcquire 0) [.semaFini 0])).isSome by decide)
    have hi : p.1.objs.semaI 0 = -1 := fact_of_map hp (f := fun p => p.1.objs.semaI 0) (by decide)
    refine ⟨p, hp, fact_of_map hp (f := fun p => p.1.pc) (by decide),
      fact_of_map hp (f := fun p => p.2) (by decide), ?_, fun h => ?_⟩
    · exact fact_of_map hp (f := fun p => (p.1.step .sample (.cont false)).isNone) (by decide)
    · have := h.assertion (.sema 0) rfl
        (fact_of_map hp (f := fun p => (p.1.ctx 1).rc) (by decide))
        (by simp only [Objs.busy]; omega)
      simp only [Objs.asserted] at this
      omega
  · obtain ⟨s', hs'⟩ := Option.isSome_iff_exists.1
      (show (exec (recorded (St.step .sample) finiWoken) (St.init .sample 0, [])
        (finiRun (.rwlockAcquireWrite 0) (.rwlockAcquireRead 0) [.rwlockFini 0] ++
          [.cont false])).isSome by decide)
    obtain ⟨p, hp, hrest⟩ := exec_append hs'
    obtain ⟨u, hu, hn⟩ := exec_cons hrest
    cases hn
    have hstep := (recorded_step hu).1
    have hpc : p.1.pc = .post 1 (.readLock 0) :=
      fact_of_map hp (f := fun p => p.1.pc) (by decide)
    have hret := fact_of_map hs' (f := fun p => p.1.ret)
      (a := some ⟨some 1, some (.readLock 0), 0⟩) (by decide)
    have hpc' : s'.1.pc = .user 1 := fact_of_map hs' (f := fun p => p.1.pc) (by decide)
    refine ⟨p, s'.1, hp, hpc, fact_of_map hp (f := fun p => p.2) (by decide), hstep, hret,
      fun h => ?_⟩
    have := h.grant false s'.1 hstep
    simp [granted, Event.returned, asks, hpc, hpc', hret, Pc.call, Call.wants] at this

/-- A waiter that is interrupted before it is resumed. -/
theorem fini_gets_nothing_interrupted :
    ∃ p, exec (recorded (St.step .sample) finiWoken) (St.init .sample 0, [])
        (finiRun (.semaAcquire 0) (.semaAcquire 0) [.semaFini 0, .setInterrupt 1]) = some p ∧
      GetsNothing .sample p.1 1 (.semaAcquire 0) := by
  obtain ⟨p, hp⟩ := Option.isSome_iff_exists.1
    (show (exec (recorded (St.step .sample) finiWoken) (St.init .sample 0, [])
      (finiRun (.semaAcquire 0) (.semaAcquire 0) [.semaFini 0, .setInterrupt 1])).isSome by decide)
  have hpc : p.1.pc = .post 1 (.semaAcquire 0) :=
    fact_of_map hp (f := fun p => p.1.pc) (by decide)
  have hw : (1, Call.semaAcquire 0) ∈ p.2 := by
    rw [fact_of_map hp (f := fun p => p.2) (a := [(1, .semaAcquire 0)]) (by decide)]
    decide
  refine ⟨p, hp, (fini_gets_nothing_iff .sample .sample 0 _ p hp 1 _ hpc hw).2 (.inl ?_)⟩
  rw [fact_of_map hp (f := fun p => (p.1.ctx 1).rc) (a := Diag.sample.CO_RC_USER_INTERRUPTED)
    (by decide)]
  decide

end Mnthr

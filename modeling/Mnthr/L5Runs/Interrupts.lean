import Mnthr.L4Inv.Threads

/-!
# Interrupts persist

The interrupted state of a thread is its `co.rc`, and nothing but
`mnthr_set_retval`, `mnthr_signal_error`, a descriptor event of the kevent
poller and the reuse of the context sets `co.rc` to 0 (`rc_step`).
`interrupt_persists`: after an interrupt every call that yields returns a
non-zero code, except a timed wait on a target that is gone: it returns the
target's `co.rc`, and returns 0 exactly when that is 0.
-/
namespace Mnthr
open St

section
variable {D : Diag} {a : Act} {e : Event} {s s' : St} {t x : Ptr}

/-- Who writes `co.rc`. -/
theorem micro_rc (hm : Micro D a s s') : (s'.ctx x).rc = (s.ctx x).rc ∨
    (∃ v, a = .rc x v ∧ (s'.ctx x).rc = v) ∨
    (a = .interrupt x ∧ (s'.ctx x).rc = D.CO_RC_USER_INTERRUPTED) ∨ a = .create x ∨
    a = .drop x := by
  by_cases hx : a.subject = some x
  swap
  · exact .inl (by rw [(micro_sameFor hm hx).ctx])
  cases hm with
  | env | gcList | sift => cases hx
  | append | unlink | removeMe | complete | quit => exact .inl rfl
  | rc c v => cases hx; exact .inr (.inl ⟨v, rfl, by simp [setCtx]⟩)
  | interrupt =>
    cases hx
    exact .inr (.inr (.inl ⟨rfl, by simp [queueNow, sleepqEnqueue, sleepqRemove, setCtx]⟩))
  | createFree | createNew => cases hx; exact .inr (.inr (.inr (.inl rfl)))
  | drop => cases hx; exact .inr (.inr (.inr (.inr rfl)))
  | attr | expire | enterLib | yield | sleepYield | resumeFast | release | die =>
    cases hx
    exact .inl (by simp [setCtx, inLib, parked, asleep, buried, Ctx.cleared])
  | resume =>
    cases hx
    exact .inl (by simp [queueNow, sleepqEnqueue, sleepqRemove, setCtx])
  | wake =>
    cases hx
    left
    unfold woken
    split
    · rfl
    · simp [queueNow, sleepqEnqueue, sleepqRemove, setCtx]
  | discard hpc hp =>
    cases hx
    left
    cases hp <;> simp [buried, setCtx, Ctx.cleared, popTmp, popRunq, clearExpire]
  | @enter _ s1 s' c poll hpc hp hst hs =>
    cases hx
    left
    have h1 : (s1.ctx x).rc = (s.ctx x).rc := by
      cases hp <;> simp [popTmp, popRunq, clearExpire, setCtx]
    rw [← h1]
    rcases enter_cases hs with ⟨-, rfl⟩ | ⟨-, -, rfl⟩ <;> simp [setCtx]

/-- The event does not write the code of `t`, and starts no thread in its context. -/
def KeepsRc (t : Ptr) (s : St) (e : Event) : Prop := t ∉ s.rcWrites e ∧ s.creates e ≠ some t

instance (t : Ptr) (s : St) (e : Event) : Decidable (KeepsRc t s e) := by
  unfold KeepsRc; infer_instance

theorem rc_step (hI : Inv s) (h : (s.ctx t).rc ≠ 0) (hc : KeepsRc t s e)
    (hs : s.step D e = some s') : (s'.ctx t).rc ≠ 0 := by
  obtain ⟨s1, hb, hch⟩ := step_micro hI.base hs
  have h1 : (s1.ctx t).rc ≠ 0 := by
    cases hb with
    | same => exact h
    | create hcr hm =>
      have hne : Act.subject (.create _) ≠ some t := fun hx => hc.2 (hcr.trans hx)
      rw [(micro_sameFor hm hne).ctx]
      exact h
  refine hch.inv (I := fun u => (u.ctx t).rc ≠ 0) ?_ h1
  intro a u v ha hm hu
  rcases micro_rc (x := t) hm with hr | ⟨w, rfl, hr⟩ | ⟨rfl, hr⟩ | rfl | rfl
  · rw [hr]; exact hu
  · rw [hr]; exact ha.resolve_right hc.1
  · rw [hr]; exact D.ne_zero 130 2
  · exact absurd ha id
  · -- only `mnthr_gc` drops contexts
    obtain ⟨rfl, hg⟩ := ha
    exact absurd hg hc.1

theorem complete_val {v : Int} {k : Call} (h : s.complete v = some s') (hme : s.me = some t)
    (hk : s.pc.call = some k) : s'.ret = some ⟨some t, some k, v⟩ := by
  simp only [complete, hme, hk, Option.map_some, Option.some.injEq] at h
  rw [← h]

/-- What a timed wait returns when it goes on: the code of a target that is
gone (`v`, which a join may replace by the caller's own), or a timeout. -/
theorem timedEnd_val {k : Call} {n : Int} {v : Int} (hk : k.target = some (x, n))
    (hv : s.gone x n → (v ≠ 0 ↔ (s.ctx x).rc ≠ 0)) (hto : ¬ s.gone x n → v ≠ 0) :
    v ≠ 0 ↔ ∀ y m, k.target = some (y, m) → s.gone y m → (s.ctx y).rc ≠ 0 := by
  by_cases hg : s.gone x n
  · rw [hv hg]
    constructor
    · rintro h y m hy -
      cases hk.symm.trans hy
      exact h
    · exact fun h => h x n hk hg
  · refine ⟨?_, fun _ => hto hg⟩
    intro _ y m hy hgy
    cases hk.symm.trans hy
    exact absurd hgy hg

/-- A call of a thread with a non-zero code, switched back to, returns. -/
theorem cont_val {k : Call} {b : Bool} (hI : Inv s) (hpc : s.pc = .post t k)
    (hrc : (s.ctx t).rc ≠ 0) (hs : s.step D (.cont b) = some s') :
    ∃ v, s'.ret = some ⟨some t, some k, v⟩ ∧
      (v ≠ 0 ↔ ∀ x n, k.target = some (x, n) → s.gone x n → (s.ctx x).rc ≠ 0) := by
  have hme : s.me = some t := hI.me t (by rw [hpc]; rfl)
  have hcall : s.pc.call = some k := by rw [hpc]; rfl
  have huntimed : k.target = none → ∀ x n, k.target = some (x, n) → s.gone x n →
      (s.ctx x).rc ≠ 0 := fun h x n hx => by rw [h] at hx; cases hx
  have hto : D.WAIT_TIMEOUT ≠ 0 := D.ne_zero 129 1
  simp only [step, hpc] at hs
  split at hs
  swap
  · cases hs
  cases k with
  | start | gone => cases hs
  | sleep _ | join _ | interruptJoin _ | errorJoin _ | condWait _ =>
    exact ⟨(s.ctx t).rc, complete_val hs hme hcall, iff_of_true hrc (huntimed rfl)⟩
  | poll st =>
    have hv : (if (s.ctx t).rc = 0 then (0 : Int) else -1) ≠ 0 := by simp [hrc]
    exact ⟨_, complete_val hs hme hcall, iff_of_true hv (huntimed rfl)⟩
  | subscribe g =>
    simp only [cont] at hs
    exact ⟨(s.ctx t).rc, complete_val hs hme hcall, iff_of_true hrc (huntimed rfl)⟩
  | subscribeTimeout g =>
    have hv : (if (s.ctx t).expireTicks = SLEEP_UNDEFINED then (s.ctx t).rc
        else D.WAIT_TIMEOUT) ≠ 0 := by split <;> assumption
    simp only [cont] at hs
    exact ⟨_, complete_val hs hme hcall, iff_of_true hv (huntimed rfl)⟩
  | semaAcquire i | isemaWait i | readLock i | writeLock i =>
    simp only [cont, hrc, ne_eq, not_false_eq_true, if_true] at hs
    exact ⟨(s.ctx t).rc, complete_val hs hme hcall, iff_of_true hrc (huntimed rfl)⟩
  | interruptJoinTimeout x n =>
    simp only [cont, interruptJoinTimeoutEnd] at hs
    split at hs
    · cases hs
    · split at hs
      · rename_i hg
        refine ⟨_, complete_val hs hme hcall,
          timedEnd_val (x := x) (n := n) rfl (fun _ => ?_) fun h => absurd hg h⟩
        split
        · exact Iff.rfl
        · rename_i hx
          rw [not_not.1 hx]
          exact iff_of_true hrc (D.ne_zero 130 2)
      · rename_i hg
        split at hs
        · rw [removeMe_eq hme, Option.bind_some] at hs
          exact ⟨_, complete_val hs hme hcall,
            timedEnd_val (x := x) (n := n) rfl (fun h => absurd h hg) fun _ => hto⟩
        · cases hs
  | waitFor x n =>
    simp only [cont, waitForEnd] at hs
    split at hs
    · cases hs
    · split at hs
      · rename_i hg
        exact ⟨_, complete_val hs hme hcall,
          timedEnd_val (x := x) (n := n) rfl (fun _ => Iff.rfl) fun h => absurd hg h⟩
      · rename_i hg
        split at hs
        · rw [removeMe_eq hme, Option.bind_some] at hs
          obtain ⟨s2, h2, hs⟩ := Option.bind_eq_some_iff.1 hs
          obtain ⟨hpc2, hme2, -⟩ := setInterrupt_frame (s := s.takenOff (.ctx x) t) hme h2
          rw [show (s.takenOff (.ctx x) t).pc = s.pc from rfl] at hpc2
          exact ⟨_, complete_val hs hme2 (hpc2 ▸ hcall),
            timedEnd_val (x := x) (n := n) rfl (fun h => absurd h hg) fun _ => hto⟩
        · cases hs
  | peek x n =>
    simp only [cont, peekEnd] at hs
    split at hs
    · cases hs
    · split at hs
      · rename_i hg
        exact ⟨_, complete_val hs hme hcall,
          timedEnd_val (x := x) (n := n) rfl (fun _ => Iff.rfl) fun h => absurd hg h⟩
      · rename_i hg
        split at hs
        · rw [removeMe_eq hme, Option.bind_some] at hs
          exact ⟨_, complete_val hs hme hcall,
            timedEnd_val (x := x) (n := n) rfl (fun h => absurd h hg) fun _ => hto⟩
        · cases hs

theorem setInterrupt_rc (hs : s.step D (.call (.setInterrupt t)) = some s')
    (hlive : (s.ctx t).f ≠ none) : (s'.ctx t).rc = D.CO_RC_USER_INTERRUPTED := by
  simp only [step, callOp] at hs
  split at hs
  · split at hs
    · unfold setInterrupt at hs
      split at hs
      · cases hs
      · cases hs
        simp [queueNow, sleepqEnqueue, sleepqRemove, setCtx]
    · cases hs
  · cases hs

end

/-- Thread 0 yields, thread 1 is about to interrupt it. -/
def yielding : List Event :=
  [.call (.spawn 0), .call (.spawn 0), .tick 10, .sift, .next, .block .yield false, .next]

/-- Thread 1 exits, thread 0 goes on in its yield. -/
def afterInterrupt : List Event := [.exit false, .sift, .next]

/-- Thread 0, interrupted, starts a thread and waits for it; that thread exits
with the code 0. -/
def waitAfterInterrupt : List Event :=
  [.exit false, .sift, .next, .cont false, .block (.waitFor 5 0) false, .sift, .next, .exit false,
    .sift, .next]

end Mnthr

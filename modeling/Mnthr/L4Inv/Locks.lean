import Mnthr.L3Micro.Objects
import Mnthr.L4Inv.Signalled

/-!
# Waiting for a semaphore or a lock

In the fragment without interrupts and timed waits no thread has a return code
other than 0, so a thread that is switched back to inside an acquire function
tests the object again: it gets it, or finds it busy and waits
(`retest`). A thread enters the wait queue of a semaphore or a lock only
when it has found it busy, with no change to the object (`joins_busy`).
-/
namespace Mnthr
open St

/-- The signalled threads of `q`, and no return codes. -/
structure LockInv (q : Waitq) (p : St × List Ptr) : Prop where
  signalled : SignalledInv q p
  rc : ∀ c, (p.1.ctx c).rc = 0

section
variable {D : Diag} {e : Event} {s s' : St} {t : Ptr} {q : Waitq} {k : Call} {g : Grant}

theorem Call.queue_of_wants (h : k.wants = some g) : k.queue = some g.queue := by
  cases k <;> cases h <;> rfl

/-- No event of the fragment stores a return code. -/
theorem untimed_stores (h : PlainCalls s) (he : e.untimed) : s.stores e = false := by
  cases e with
  | call op => cases op <;> first | rfl | cases he
  | block op b => cases op <;> first | rfl | cases he
  | cont b =>
    simp only [stores]
    cases hpc : s.pc with
    | post t k =>
      have hk := h.post t k hpc
      cases k <;> first | rfl | cases hk
    | _ => rfl
  | pollResume => cases he
  | _ => rfl

theorem lockInv_step {p p' : St × List Ptr} (h : LockInv q p) (hp : Untimed p.1 e)
    (hs : signals D q p e = some p') : LockInv q p' := by
  refine ⟨signalled_step h.signalled hp hs, fun c => ?_⟩
  have hI := h.signalled.inv
  have heff := step_effect hI.inv.base (recorded_step hs).1
  rcases heff.rc (untimed_stores hI.calls hp.1) c with hc | hc
  · rw [hc]; exact h.rc c
  · exact hc

theorem lockInv_init (objs : Objs) (now : Nat) (q : Waitq) : LockInv q (St.init objs now, []) :=
  ⟨⟨untimed_init objs now, List.nodup_nil, by simp⟩, fun _ => rfl⟩

/-- A thread enters a wait queue when it suspends itself in a call that waits
there. -/
theorem joins_step (hI : Inv s) (hs : s.step D e = some s') (hq : s'.wq.hosting t = some q) :
    s.wq.hosting t = some q ∨ ∃ k, s.suspends e = some k ∧ k.queue = some q := by
  obtain ⟨s1, hb, hch⟩ := step_micro hI.base hs
  refine hch.inv (I := fun u => u.wq.hosting t = some q →
    s.wq.hosting t = some q ∨ ∃ k, s.suspends e = some k ∧ k.queue = some q) ?_ ?_ hq
  · intro a u v ha hm hu hv
    rcases hosting_micro hm hv with h | rfl
    · exact hu h
    · exact .inr (Option.bind_eq_some_iff.1 ha)
  · cases hb with
    | same => exact .inl
    | create _ hm =>
      have : s1.wq = s.wq := by cases hm <;> rfl
      rw [this]
      exact .inl

theorem mem_waits {c : Ptr} {b : Bool} {q' : Waitq} (h : t ∈ (s.waits q' c k b).wq.queue q) :
    t ∈ s.wq.queue q ∨ (t = c ∧ q' = q) := by
  have h : t ∈ (s.wq.append q' c).queue q := h
  unfold WaitQs.append at h
  simp only [WaitQs.setHosting, WaitQs.setQueue] at h
  by_cases hq : q = q'
  · subst hq
    rw [Function.update_self] at h
    rcases List.mem_append.1 h with h | h
    · exact .inl (leave_subset h)
    · exact .inr ⟨List.mem_singleton.1 h, rfl⟩
  · rw [Function.update_of_ne hq] at h
    exact .inl (leave_subset h)

/-- The acquire function that an event runs. -/
theorem acquire_of_asks (hI : Inv s) (hs : s.step D e = some s') (ha : s.asks e = some g)
    (hc : ∀ op, e ≠ .call op) : ∃ c k, k.wants = some g ∧ Acquire g k c s e s' := by
  cases e with
  | call op => exact absurd rfl (hc op)
  | block op b =>
    cases hpc : s.pc with
    | user c =>
      obtain ⟨k, hk, h⟩ := block_acquire hI.base hpc ha hs
      exact ⟨c, k, hk, h⟩
    | _ => simp [step, hpc] at hs
  | cont b =>
    cases hpc : s.pc with
    | post c k =>
      have hk : k.wants = some g := by simpa [asks, hpc, Pc.call] using ha
      exact ⟨c, k, hk, cont_acquire hI.base hpc hk hs⟩
    | _ => simp [step, hpc] at hs
  | _ => cases ha

theorem asks_of_suspends (hk : s.suspends e = some k) (hw : k.wants = some g) :
    s.asks e = some g ∧ ∀ op, e ≠ .call op := by
  cases e with
  | block op b =>
    refine ⟨?_, by simp⟩
    cases op with
    | semaAcquire i | rwlockAcquireRead i | rwlockAcquireWrite i => cases hk; exact hw
    | join c | setInterruptAndJoin c | setInterruptAndJoinWithTimeout c v =>
      simp only [suspends] at hk
      split at hk <;> cases hk
      cases hw
    | signalErrorAndJoin i v =>
      obtain ⟨o, -, rfl⟩ := Option.map_eq_some_iff.1 hk
      cases hw
    | _ => cases hk; cases hw
  | cont b =>
    refine ⟨?_, by simp⟩
    obtain ⟨hpc, -⟩ := Option.filter_eq_some_iff.1 hk
    simp only [asks, hpc, Option.bind_some]
    exact hw
  | _ => cases hk

/-- Who enters the wait queue of `g` has found it busy. -/
theorem joins_busy (hI : UntimedInv s) (hp : Untimed s e) (hs : s.step D e = some s')
    (hq : ∀ k : Call, k.queue = some q → ∃ g, k.wants = some g) (ht : t ∈ s'.wq.queue q) :
    t ∈ s.wq.queue q ∨ ∃ g k b, k.wants = some g ∧ k.queue = some q ∧ s.objs.busy g ∧
      s' = s.waits q t k b := by
  have hI' := untimed_step hI hp hs
  rcases joins_step hI.inv hs ((hI'.tidy.ok.mem t q).1 ht) with h | ⟨k, hk, hkq⟩
  · exact .inl ((hI.tidy.ok.mem t q).2 h)
  obtain ⟨g, hw⟩ := hq k hkq
  obtain ⟨ha, hc⟩ := asks_of_suspends hk hw
  obtain ⟨c, k', hw', hacq⟩ := acquire_of_asks hI.inv hs ha hc
  cases hacq with
  | @wait q' b hb hq' hs' =>
    rw [Call.queue_of_wants hw, ← Call.queue_of_wants hw', hq'] at hkq
    cases hkq
    rw [hs'] at ht
    rcases mem_waits ht with ht | ⟨rfl, -⟩
    · exact .inl ht
    · exact .inr ⟨g, k', b, hw', hq', hb, hs'⟩
  | grant hg hw => rw [hw] at ht; exact .inl ht
  | fail hrc ho hw => rw [hw] at ht; exact .inl ht

/-- A thread that is switched back to gets what it waits for, or waits again. -/
theorem retest {p p' : St × List Ptr} {b : Bool} (h : LockInv q p) (hpc : p.1.pc = .post t k)
    (hw : k.wants = some g) (hs : signals D q p (.cont b) = some p') :
    (p.1.granted (.cont b) p'.1 = some g ∧ p'.1.wq = p.1.wq) ∨
      (p.1.objs.busy g ∧ p'.1.objs = p.1.objs) := by
  cases cont_acquire h.signalled.inv.inv.base hpc hw (recorded_step hs).1 with
  | wait hb hq hs' => exact .inr ⟨hb, by rw [hs']; rfl⟩
  | grant hg hw => exact .inl ⟨hg, hw⟩
  | fail hrc => exact absurd (h.rc t) hrc

/-- A queued thread stays where it is suspended. -/
theorem queued_step (hI : UntimedInv s) (hp : Untimed s e) (hs : s.step D e = some s')
    (ht : t ∈ s.wq.queue q) (hr : s.pc.runs ≠ some t) :
    s'.pc.runs ≠ some t ∧ (s'.ctx t).uc = (s.ctx t).uc := by
  have hw := hI.tidy.parked t q ((hI.tidy.ok.mem t q).1 ht) hr
  rcases blocked_step hI hp hs (resumable_ne hw.resumable).1 hr with h | ⟨-, hn, -⟩
  · exact h
  · exact absurd (mem_pending_of_nextPick hn) (hI.calls.notMem_pending hI.tidy hI.sleep ht)

/-- `resume_waitq_one` takes the head off the queue. -/
theorem resumeWaitqOne_queue {rest : List Ptr} (h : s.resumeWaitqOne q = some s')
    (hq : s.wq.queue q = t :: rest) : s'.wq.queue q = rest := by
  rcases resumeWaitqOne_cases h with ⟨h0, -⟩ | ⟨t', rest', h1, -, rfl⟩
  · rw [hq] at h0; cases h0
  · rw [hq] at h1
    cases h1
    rw [woken_queue, Function.update_self]

/-- `resume_waitq_all` empties the queue. -/
theorem resumeWaitqAll_queue (h : s.resumeWaitqAll q = some s') : s'.wq.queue q = [] := by
  have key : ∀ {n : Nat} {u : St}, (u.wq.queue q).length = n → resumeWaitqN n u q = some s' →
      s'.wq.queue q = [] := by
    intro n
    induction n with
    | zero =>
      intro u hn h
      cases h
      exact List.eq_nil_of_length_eq_zero hn
    | succ n ih =>
      intro u hn h
      obtain ⟨u1, h1, h2⟩ := Option.bind_eq_some_iff.1 h
      obtain ⟨t, rest, hq⟩ := List.exists_cons_of_length_eq_add_one hn
      refine ih ?_ h2
      rw [resumeWaitqOne_queue h1 hq]
      simpa [hq] using hn
  exact key rfl h

end

end Mnthr

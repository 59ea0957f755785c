import Mnthr.L4Inv.Residue

/-!
# A call that returns leaves nothing behind

`blocking_noResidue`: in every run in which nobody interrupts a thread that is
in the queue of an untimed wait, and `mnthr_peek` is given started threads
only, a thread to which a call has returned is in no wait queue, whether it
was signalled, timed out, or interrupted in a timed wait.

`join_waitq` and `mnthr_cond_wait` do not take the caller off the queue when
`yield` returns; an interrupt leaves it there (`interruptedWait`).
-/
namespace Mnthr
open St

/-- A thread between calls is in no wait queue. -/
def NoResidue (s : St) : Prop :=
  ∀ t, s.pc = .user t → s.wq.hosting t = none ∧ ∀ q, t ∉ s.wq.queue q

theorem tidy_exec {D : Diag} {objs : Objs} {now : Nat} {es : List Event} {s : St}
    (hr : Reaches D objs now es s) (hc : Along (St.step D) Clean (St.init objs now) es) :
    Inv s ∧ SleepInv s ∧ Tidy s ∧ Unwaited s := by
  refine exec_inv (I := fun u => Inv u ∧ SleepInv u ∧ Tidy u ∧ Unwaited u) ?_
    ⟨inv_init objs now, sinv_init objs now, tidy_init objs now⟩ hc hr
  intro u e v hx hcu hs
  obtain ⟨hI, hS, hT, hU⟩ := hx
  exact ⟨inv_step hI hs, tidy_step hI hS hT hU hcu hs⟩

theorem blocking_noResidue {D : Diag} {objs : Objs} {now : Nat} {es : List Event} {s : St}
    (hr : Reaches D objs now es s) (hc : Along (St.step D) Clean (St.init objs now) es) :
    NoResidue s := by
  obtain ⟨-, -, h, -⟩ := tidy_exec hr hc
  intro t ht
  have hnone := h.user t ht
  refine ⟨hnone, fun q hq => ?_⟩
  have := (h.ok.mem t q).1 hq
  rw [hnone] at this
  cases this

/-- Thread 0 looks at thread 1 for 5 ms, which interrupts it. -/
def interruptedPeek : List Event :=
  [.call (.spawn 0), .call (.spawn 0), .tick 10, .sift, .next, .block (.peek 1 5) false, .next,
    .call (.setInterrupt 0), .block .yield false, .sift, .next, .cont false]

theorem blocking_noResidue_interruptedPeek : ∃ s, sampleRun interruptedPeek = some s ∧
    s.ret = some ⟨some 0, some (.peek 1 1), Diag.sample.WAIT_TIMEOUT⟩ ∧ NoResidue s := by
  obtain ⟨s, hs⟩ := Option.isSome_iff_exists.1 (show (sampleRun interruptedPeek).isSome by decide)
  exact ⟨s, hs, sampleRun_fact hs (f := St.ret) (by decide),
    blocking_noResidue hs (along_of_decide (by decide))⟩

/-- Thread 0 waits on a condition variable and is interrupted by thread 1. -/
def interruptedWait : List Event :=
  [.call (.spawn 0), .call (.spawn 0), .tick 10, .sift, .next, .block (.condWait 0) false, .next,
    .call (.setInterrupt 0), .block .yield false, .sift, .next, .cont false]

theorem residue_interruptedWait : ∃ s, sampleRun interruptedWait = some s ∧
    s.ret = some ⟨some 0, some (.condWait 0), Diag.sample.CO_RC_USER_INTERRUPTED⟩ ∧
    ¬ NoResidue s := by
  obtain ⟨s, hs⟩ := Option.isSome_iff_exists.1 (show (sampleRun interruptedWait).isSome by decide)
  refine ⟨s, hs, sampleRun_fact hs (f := St.ret) (by decide), fun h => ?_⟩
  have hq : s.wq.hosting 0 = some (.cond 0) :=
    sampleRun_fact hs (f := fun s => s.wq.hosting 0) (by decide)
  have := (h 0 (sampleRun_fact hs (f := St.pc) (by decide))).1
  rw [hq] at this
  cases this

end Mnthr

import Mnthr.L4Inv.Sleep

/-!
# The sleep queue and the free list along runs

In every run that sets no context of the current sift batch for resume or
interrupt (`Calm`):

* `sleepq_integrity`: a context is in `the_sleepq` at most once, under its own
  `expire_ticks`, and not while it runs.
* `recycling_sound`: `poller_resume` gets resumable contexts only, and
  `free_list` holds a context at most once.

A thread that interrupts a context of the batch breaks both: `sleepq_remove`
does not find the context in the trie, and it is queued a second time.
-/
namespace Mnthr
open St

theorem sinv_exec {D : Diag} {objs : Objs} {now : Nat} {es : List Event} {s : St}
    (hr : Reaches D objs now es s) (hc : Along (St.step D) Calm (St.init objs now) es) :
    Inv s ∧ SleepInv s :=
  exec_inv (I := fun u => Inv u ∧ SleepInv u)
    (fun _ _ _ hu hcu hs => ⟨inv_step hu.1 hs, sinv_step hu.1 hu.2 hcu hs⟩)
    ⟨inv_init objs now, sinv_init objs now⟩ hc hr

/-! ## The sleep queue -/

structure SleepqIntegrity (s : St) : Prop where
  once : s.sleepq.all.Nodup
  filed : ∀ k c, s.sleepq.At k c → (s.ctx c).expireTicks = k
  running : ∀ c, s.pc.runs = some c → s.me = some c ∧ c ∉ s.sleepq.all

theorem sleepq_integrity {D : Diag} {objs : Objs} {now : Nat} {es : List Event} {s : St}
    (hr : Reaches D objs now es s) (hc : Along (St.step D) Calm (St.init objs now) es) :
    SleepqIntegrity s := by
  obtain ⟨hI, h⟩ := sinv_exec hr hc
  exact ⟨h.queue.nodup_all, h.queue.filed, fun c hr => ⟨hI.me c hr, (h.running c hr).1⟩⟩

/-- Thread 0 sleeps, thread 1 interrupts it and yields, thread 0 goes on. -/
def interruptedSleep : List Event :=
  [.call (.spawn 0), .call (.spawn 0), .tick 10, .sift, .next, .block (.sleep .msec 5) false, .next,
    .call (.setInterrupt 0), .block .yield false, .sift, .next, .cont false]

theorem sleepq_integrity_interruptedSleep :
    ∃ s, sampleRun interruptedSleep = some s ∧ s.pc = .user 0 ∧ SleepqIntegrity s := by
  obtain ⟨s, hs⟩ := Option.isSome_iff_exists.1 (show (sampleRun interruptedSleep).isSome by decide)
  exact ⟨s, hs, sampleRun_fact hs (f := St.pc) (by decide),
    sleepq_integrity hs (along_of_decide (by decide))⟩

/-- Threads 0 and 1 are taken out by one sift; thread 0 runs first and
interrupts thread 1, which then runs while it is queued again. -/
def interruptedBatch : List Event :=
  [.call (.spawn 0), .call (.spawn 0), .tick 10, .sift, .next, .call (.setInterrupt 1),
    .block .yield false, .next]

theorem sleepq_integrity_interruptedBatch :
    ∃ s, sampleRun interruptedBatch = some s ∧ ¬ SleepqIntegrity s := by
  obtain ⟨s, hs⟩ := Option.isSome_iff_exists.1 (show (sampleRun interruptedBatch).isSome by decide)
  have hpc : s.pc = .user 1 := sampleRun_fact hs (f := St.pc) (by decide)
  have hall : s.sleepq.all = [1, 0] := sampleRun_fact hs (f := fun s => s.sleepq.all) (by decide)
  refine ⟨s, hs, fun h => (h.running 1 (by rw [hpc]; rfl)).2 ?_⟩
  rw [hall]; decide

/-! ## The free list -/

structure RecyclingSound (s : St) : Prop where
  /-- the next call of `poller_resume` -/
  picked : ∀ c, s.nextPick = some c → (s.ctx c).state.resumable
  /-- the next call of `push_free_ctx`, when the thread that runs exits -/
  pushed : ∀ c, s.pc.runs = some c → c ∉ s.freeList
  once : s.freeList.Nodup

theorem recycling_sound {D : Diag} {objs : Objs} {now : Nat} {es : List Event} {s : St}
    (hr : Reaches D objs now es s) (hc : Along (St.step D) Calm (St.init objs now) es) :
    RecyclingSound s := by
  obtain ⟨hI, h⟩ := sinv_exec hr hc
  refine ⟨fun c hp => h.resumable (.inr (mem_pending_of_nextPick hp)), ?_,
    (List.nodup_append.1 h.free).1⟩
  intro c hrun hm
  exact hI.live c (hI.run c hrun) (h.dead c (.inl hm))

/-- Thread 0 sleeps, thread 1 interrupts it and exits, and so does thread 0. -/
def interruptedExit : List Event :=
  [.call (.spawn 0), .call (.spawn 0), .tick 10, .sift, .next, .block (.sleep .msec 5) false, .next,
    .call (.setInterrupt 0), .exit false, .sift, .next, .cont false, .exit false]

theorem recycling_sound_interruptedExit :
    ∃ s, sampleRun interruptedExit = some s ∧ s.freeList = [1, 0] ∧ RecyclingSound s := by
  obtain ⟨s, hs⟩ := Option.isSome_iff_exists.1 (show (sampleRun interruptedExit).isSome by decide)
  exact ⟨s, hs, sampleRun_fact hs (f := St.freeList) (by decide),
    recycling_sound hs (along_of_decide (by decide))⟩

/-- Thread 1, interrupted in the batch, runs and exits; the next sift finds
its dead context in the trie and frees it again. -/
def interruptedTwice : List Event := interruptedBatch ++ [.exit false, .sift, .next]

theorem recycling_interruptedTwice :
    ∃ s, sampleRun interruptedTwice = some s ∧ ¬ RecyclingSound s := by
  obtain ⟨s, hs⟩ := Option.isSome_iff_exists.1 (show (sampleRun interruptedTwice).isSome by decide)
  have hf : s.freeList = [1, 1] := sampleRun_fact hs (f := St.freeList) (by decide)
  refine ⟨s, hs, fun h => ?_⟩
  have := h.once
  rw [hf] at this
  exact absurd this (by decide)

end Mnthr

import Mnthr.L4Inv.Teardown
import Mnthr.L5Runs.Fifo

/-!
# `mnthr_fini` and the contexts it has freed

`mnthr_ctx_fini` does not take a context out of the sleep queue, so that the node
of its key, or the bucket of another context, goes on leading to it. The joiners
of the contexts that follow are woken with `sleepq_remove` and
`sleepq_enqueue`, which read the host of the key and the neighbours in its
bucket. `fini_live`: in every teardown, from every state that a run reaches
which sets no context of a sift's batch for resume or interrupt (`Calm`), the
steps read and write no context that has been freed exactly when no thread that
is woken meets one in the lists of the sleep queue.

The wait queues are no danger: `mnthr_ctx_finalize` empties the one of the
context and takes the context off the one it is in (`TeardownOk.gone`).
-/
namespace Mnthr
open St

/-- The step neither reads nor writes a context that has been freed. -/
def Teardown.TouchesLive (u : Teardown Heap) (l : FiniStep) : Prop :=
  ∀ a ∈ u.mem.touches l, a ∉ u.freed

instance (u : Teardown St) (l : FiniStep) : Decidable (u.MeetsLive l) := by
  cases l <;> unfold Teardown.MeetsLive <;> infer_instance

theorem orderly_exec {D : Diag} {es : List Event} {s s' : St} (h : Orderly s)
    (hc : Along (St.step D) Calm s es) (hr : exec (St.step D) s es = some s') : Orderly s' :=
  exec_inv (fun _ _ _ ho hcalm hs => orderly_step ho hcalm hs) h hc hr

/-- `mnthr_fini` is called: no sift is under way, nothing has been freed. -/
theorem mirrors_start {s : St} {h : Heap} (ho : Orderly s) (hrunq : s.runq = [])
    (htmp : s.tmp = []) (hh : h.Stands s) :
    Mirrors (.start h s.ctxes) (.start s s.ctxes) := by
  have hq := ho.sleep.queue
  rw [hrunq, htmp] at hq
  exact ⟨hh, rfl, rfl, rfl, ⟨_, hq, fun _ _ => rfl⟩, ho.linked.ok,
    by simpa [Teardown.start] using ho.inv.nodup, by simp [Teardown.start]⟩

/-- There is a memory that stands for the state. -/
theorem Reaches.heap_stands {D : Diag} {objs : Objs} {now : Nat} {es : List Event} {s : St}
    (hr : Reaches D objs now es s) (hc : Along (St.step D) Calm (St.init objs now) es)
    (hrunq : s.runq = []) (htmp : s.tmp = []) : s.heap.Stands s := by
  have ho := orderly_exec (orderly_init objs now) hc hr
  have hq := ho.sleep.queue
  rw [hrunq, htmp] at hq
  exact Mnthr.heap_stands hq ho.linked.ok

/-- In every teardown, on any memory that stands for the state. -/
theorem fini_live {D : Diag} {objs : Objs} {now : Nat} {es : List Event} {s : St} {h : Heap}
    {ls : List FiniStep} {p : Teardown Heap} (hr : Reaches D objs now es s)
    (hc : Along (St.step D) Calm (St.init objs now) es) (hrunq : s.runq = []) (htmp : s.tmp = [])
    (hh : h.Stands s) (hp : exec (Teardown.step Heap.ctxOps) (.start h s.ctxes) ls = some p) :
    Along (Teardown.step Heap.ctxOps) Teardown.TouchesLive (.start h s.ctxes) ls ↔
      Along (Teardown.step St.ctxOps) Teardown.MeetsLive (.start s s.ctxes) ls := by
  have ho := orderly_exec (orderly_init objs now) hc hr
  refine (along_sim (R := Mirrors) (fun p u l p' hR hs => ?_) (fun p u l p' hR hs => ?_)
    (mirrors_start ho hrunq htmp hh) hp).1
  · obtain ⟨u', hu, hR', -⟩ := mirrors_step hR hs
    exact ⟨u', hu, hR'⟩
  · obtain ⟨-, -, -, hiff⟩ := mirrors_step hR hs
    exact hiff

/-- Threads 0, 2 and 3 sleep, 2 and 3 until the same time, thread 1 waits for
thread 0. -/
def joinedSleeper : List Event :=
  [.call (.spawn 0), .call (.spawn 0), .call (.spawn 0), .call (.spawn 0), .tick 10, .sift, .next,
    .block (.sleep .msec 5) false, .next, .block (.join 0) false, .next,
    .block (.sleep .msec 7) false, .next, .block (.sleep .msec 7) false]

/-- All four are freed. -/
def joinedSleeperFini : List FiniStep :=
  [.begin 0, .wake 0 1, .release 0, .begin 1, .release 1, .begin 2, .release 2, .begin 3,
    .release 3]

theorem fini_live_joinedSleeper : ∃ s p, sampleRun joinedSleeper = some s ∧
    exec (Teardown.step Heap.ctxOps) (.start s.heap s.ctxes) joinedSleeperFini = some p ∧
    p.freed = [0, 1, 2, 3] ∧ p.todo = [] ∧
    Along (Teardown.step Heap.ctxOps) Teardown.TouchesLive (.start s.heap s.ctxes)
      joinedSleeperFini := by
  obtain ⟨s, hs⟩ := Option.isSome_iff_exists.1 (show (sampleRun joinedSleeper).isSome by decide)
  have hcalm : Along (St.step .sample) Calm (St.init .sample 0) joinedSleeper :=
    along_of_decide (by decide)
  have hrunq : s.runq = [] := sampleRun_fact hs (f := St.runq) (by decide)
  have htmp : s.tmp = [] := sampleRun_fact hs (f := St.tmp) (by decide)
  have hrun := sampleRun_fact hs (f := fun s => (exec (Teardown.step Heap.ctxOps)
    (.start s.heap s.ctxes) joinedSleeperFini).map fun p => (p.freed, p.todo))
    (a := some ([0, 1, 2, 3], [])) (by decide)
  obtain ⟨p, hp, hpe⟩ := Option.map_eq_some_iff.1 hrun
  have hlive : checkAlong (Teardown.step St.ctxOps) (fun u l => decide (u.MeetsLive l))
      (.start s s.ctxes) joinedSleeperFini = true :=
    sampleRun_fact hs (f := fun s => checkAlong (Teardown.step St.ctxOps)
      (fun u l => decide (u.MeetsLive l)) (.start s s.ctxes) joinedSleeperFini) (by decide)
  have hstands := Reaches.heap_stands hs hcalm hrunq htmp
  exact ⟨s, p, hs, hp, congrArg Prod.fst hpe, congrArg Prod.snd hpe,
    (fini_live hs hcalm hrunq htmp hstands hp).2 (along_of_decide hlive)⟩

/-- Threads 0 and 2 sleep, thread 1 waits for thread 0, thread 3 for thread 2;
thread 0 has called `mnthr_shutdown`, which starts thread 4. -/
def shutdownJoined : List Event :=
  [.call (.spawn 0), .call (.spawn 0), .call (.spawn 0), .call (.spawn 0), .tick 10, .sift, .next,
    .call (.spawn 0), .block (.sleep .msec 5) false, .next, .block (.join 0) false, .next,
    .block (.sleep .msec 7) false, .next, .block (.join 2) false]

/-- When thread 3 is woken, context 1 has been freed. It is the last one under
`MNTHR_SLEEP_RESUME_NOW`, where thread 1 was put when context 0 was finalized, and
`sleepq_append` links thread 3 behind it. -/
theorem fini_touchesFreed : ∃ s u, sampleRun shutdownJoined = some s ∧ s.pc = .sched ∧
    s.runq = [] ∧ s.tmp = [] ∧ s.heap.Stands s ∧
    exec (Teardown.step Heap.ctxOps) (.start s.heap s.ctxes)
      [.begin 0, .wake 0 1, .release 0, .begin 1, .release 1, .begin 2] = some u ∧
    (u.step Heap.ctxOps (.wake 2 3)).isSome ∧ 1 ∈ u.freed ∧ 1 ∈ u.mem.touches (.wake 2 3) := by
  obtain ⟨s, hs⟩ := Option.isSome_iff_exists.1 (show (sampleRun shutdownJoined).isSome by decide)
  have hrunq : s.runq = [] := sampleRun_fact hs (f := St.runq) (by decide)
  have htmp : s.tmp = [] := sampleRun_fact hs (f := St.tmp) (by decide)
  have hrun := sampleRun_fact hs (f := fun s => (exec (Teardown.step Heap.ctxOps)
    (.start s.heap s.ctxes) [.begin 0, .wake 0 1, .release 0, .begin 1, .release 1, .begin 2]).map
      fun u => ((u.step Heap.ctxOps (.wake 2 3)).isSome, decide (1 ∈ u.freed),
        decide (1 ∈ u.mem.touches (.wake 2 3)))) (a := some (true, true, true)) (by decide)
  obtain ⟨u, hu, hue⟩ := Option.map_eq_some_iff.1 hrun
  simp only [Prod.mk.injEq, decide_eq_true_eq] at hue
  exact ⟨s, u, hs, sampleRun_fact hs (f := St.pc) (by decide), hrunq, htmp,
    Reaches.heap_stands hs (along_of_decide (by decide)) hrunq htmp, hu, hue.1, hue.2.1, hue.2.2⟩

end Mnthr

import Mnthr.L4Inv.Places

/-!
# No thread is lost and none is duplicated

`threads_conserved`: in every run of the fragment without interrupts, timed
waits and `fini` (`Plain`), every started thread that does not run is in
exactly one place, a queued thread has no deadline, and a started thread stays
one until it exits.
-/
namespace Mnthr
open St

/-- `t` is started and has not exited: `CO_STATE_DORMANT` is the state of a
context before `set_resume` and after `mnthr_ctx_finalize`. -/
def St.started (s : St) (t : Ptr) : Prop := (s.ctx t).state ≠ .dormant

/-- `t` is once in the sleep queue, under its `expire_ticks`, or once in the
rest of the current batch, or once in one wait queue, and nowhere else. -/
def OnePlace (s : St) (t : Ptr) : Prop :=
  (s.sleepq.all.count t = 1 ∧ s.sleepq.At (s.ctx t).expireTicks t ∧ s.pending.count t = 0 ∧
    ∀ q, (s.wq.queue q).count t = 0) ∨
  (s.sleepq.all.count t = 0 ∧ s.pending.count t = 1 ∧ ∀ q, (s.wq.queue q).count t = 0) ∨
  (s.sleepq.all.count t = 0 ∧ s.pending.count t = 0 ∧
    ∃ q, (s.wq.queue q).count t = 1 ∧ ∀ q', q' ≠ q → (s.wq.queue q').count t = 0)

section
variable {D : Diag} {e : Event} {s s' : St} {t : Ptr}

theorem onePlace_of_plain (h : PlainInv s) (ht : s.started t) (hr : s.pc.runs ≠ some t) :
    OnePlace s t := by
  obtain ⟨hI, hS, hT, -, hP⟩ := h
  have hn := hS.queue.nodup
  rw [show s.sleepq.batch s.tmp s.runq = s.pending from rfl] at hn
  obtain ⟨hall, hpend, hdisj⟩ := List.nodup_append.1 hn
  have unhosted : s.filed t → ∀ q, (s.wq.queue q).count t = 0 := fun hf q =>
    List.count_eq_zero.2 fun hm => (hP.toCalls.waiting hT ((hT.ok.mem t q).1 hm) hr).2 hf
  rcases hP.somewhere t ht with hrun | hf | hq
  · exact absurd hrun hr
  · rcases id hf with hm | hm
    · refine .inl ⟨List.count_eq_one_of_mem hall hm, (hS.queue.at_key hm).1, ?_, unhosted hf⟩
      exact List.count_eq_zero.2 fun hm' => hdisj t hm t hm' rfl
    · refine .inr (.inl ⟨?_, List.count_eq_one_of_mem hpend hm, unhosted hf⟩)
      exact List.count_eq_zero.2 fun hm' => hdisj t hm' t hm rfl
  · obtain ⟨q, hq⟩ := Option.ne_none_iff_exists'.1 hq
    have hout := (hP.toCalls.waiting hT hq hr).2
    refine .inr (.inr ⟨List.count_eq_zero.2 fun hm => hout (.inl hm),
      List.count_eq_zero.2 fun hm => hout (.inr hm), q,
      List.count_eq_one_of_mem (hT.ok.nodup q) ((hT.ok.mem t q).2 hq), fun q' hne => ?_⟩)
    refine List.count_eq_zero.2 fun hm => hne ?_
    have := (hT.ok.mem t q').1 hm
    rw [hq] at this
    exact (Option.some.inj this).symm

theorem started_step (h : PlainInv s) (hp : Plain s e) (hs : s.step D e = some s')
    (ht : s.started t) : s'.started t ∨ (e = .exit false ∧ s.pc = .user t) :=
  live_step h.toUntimed hp.untimed hs ht

end

theorem threads_conserved {D : Diag} {objs : Objs} {now : Nat} {es : List Event} {s : St}
    (hr : Reaches D objs now es s) (hc : Along (St.step D) Plain (St.init objs now) es) :
    (∀ t, s.started t → s.pc.runs ≠ some t → OnePlace s t) ∧
      (∀ t q, t ∈ s.wq.queue q → (s.ctx t).expireTicks = SLEEP_UNDEFINED) ∧
      ∀ e s', Plain s e → s.step D e = some s' → ∀ t, s.started t →
        s'.started t ∨ (e = .exit false ∧ s.pc = .user t) := by
  have h := plain_exec (plain_init objs now) hc hr
  refine ⟨fun t => onePlace_of_plain h, fun t q hq => ?_, fun e s' hp hs t => started_step h hp hs⟩
  exact h.places.hosted t (by rw [(h.tidy.ok.mem t q).1 hq]; simp)

/-- Thread 0 sleeps, thread 1 waits on a condition variable, thread 2 for
thread 0, and thread 3 has yet to be resumed by the sift. -/
def everywhere : List Event :=
  [.call (.spawn 0), .call (.spawn 0), .call (.spawn 0), .call (.spawn 0), .tick 10, .sift, .next,
    .block (.sleep .msec 5) false, .next, .block (.condWait 0) false, .next,
    .block (.join 0) false]

theorem threads_conserved_everywhere : ∃ s, sampleRun everywhere = some s ∧
    s.sleepq.all = [0] ∧ s.wq.queue (.cond 0) = [1] ∧ s.wq.queue (.ctx 0) = [2] ∧ s.pending = [3] ∧
    ∀ t ∈ [0, 1, 2, 3], OnePlace s t := by
  obtain ⟨s, hs⟩ := Option.isSome_iff_exists.1 (show (sampleRun everywhere).isSome by decide)
  refine ⟨s, hs, sampleRun_fact hs (f := fun s => s.sleepq.all) (by decide),
    sampleRun_fact hs (f := fun s => s.wq.queue (.cond 0)) (by decide),
    sampleRun_fact hs (f := fun s => s.wq.queue (.ctx 0)) (by decide),
    sampleRun_fact hs (f := St.pending) (by decide), fun t ht => ?_⟩
  have hst : ∀ t ∈ [0, 1, 2, 3], (s.ctx t).state ≠ .dormant := by
    simpa using sampleRun_fact hs (a := true)
      (f := fun s => [0, 1, 2, 3].all fun t => (s.ctx t).state ≠ .dormant) (by decide)
  refine (threads_conserved hs (along_of_decide (by decide))).1 t (hst t ht) ?_
  rw [sampleRun_fact hs (f := fun s => s.pc.runs) (a := none) (by decide)]
  simp

end Mnthr

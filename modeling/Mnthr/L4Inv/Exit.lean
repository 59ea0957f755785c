import Mnthr.L4Inv.Sleep

/-!
# What an exit does to the joiners

`resume_waitq_all` on the wait queue of an exiting context, on a sleep queue
in order (`Sleepq.Ok`) and with no joiner in the current sift batch: every
joiner ends up set for resume, in the trie under `MNTHR_SLEEP_RESUME_NOW`
(`Queued`). `exit_spec` is the exit as a whole.
-/
namespace Mnthr
open St

/-- The sleep queue is in order. -/
def St.SleepqOk (s : St) : Prop := s.sleepq.Ok s.tmp s.runq fun c => (s.ctx c).expireTicks

/-- `t` is set for resume, and in the sleep queue for it. -/
def Queued (s : St) (t : Ptr) : Prop :=
  (s.ctx t).state = .setResume ∧ s.sleepq.At SLEEP_RESUME_NOW t

section
variable {s s' : St} {c t : Ptr} {q : Waitq} {rest : List Ptr}

theorem woken_dead (h : (s.ctx c).f = none) : (s.woken q t rest).ctx c = s.ctx c := by
  unfold woken
  split
  · rfl
  · rename_i hf
    have hct : c ≠ t := by intro heq; subst heq; exact hf h
    simp [queueNow, sleepqEnqueue, sleepqRemove, setCtx, dequeue, hct]

theorem woken_sleepqOk (q : Waitq) (rest : List Ptr) (h : s.SleepqOk) (ht : t ∉ s.pending) :
    (s.woken q t rest).SleepqOk ∧ (s.woken q t rest).pending = s.pending ∧
      (∀ u, Queued s u → Queued (s.woken q t rest) u) ∧
      ((s.ctx t).f ≠ none → Queued (s.woken q t rest) t) := by
  unfold woken
  split
  · rename_i hf
    exact ⟨h, rfl, fun u hu => hu, fun hn => absurd hf hn⟩
  · obtain ⟨h1, h2, h3⟩ := h.requeue ht (s.ctx t).prio (d := SLEEP_RESUME_NOW) (by decide)
    have hsq : ((s.dequeue q t rest).queueNow t { s.ctx t with state := .setResume }).sleepq =
        (s.sleepq.remove (s.ctx t).expireTicks t).enqueue (s.ctx t).prio SLEEP_RESUME_NOW t := by
      simp [queueNow, sleepqEnqueue, sleepqRemove, setCtx, dequeue]
    have hctx : ∀ u, u ≠ t →
        ((s.dequeue q t rest).queueNow t { s.ctx t with state := .setResume }).ctx u = s.ctx u := by
      intro u hu
      simp [queueNow, sleepqEnqueue, sleepqRemove, setCtx, dequeue, hu]
    have hself : ((s.dequeue q t rest).queueNow t { s.ctx t with state := .setResume }).ctx t =
        { s.ctx t with state := .setResume, expireTicks := SLEEP_RESUME_NOW } := by
      simp [queueNow, sleepqEnqueue, sleepqRemove, setCtx]
    have hkey : (fun u => (((s.dequeue q t rest).queueNow t
        { s.ctx t with state := .setResume }).ctx u).expireTicks) =
        Function.update (fun u => (s.ctx u).expireTicks) t SLEEP_RESUME_NOW := by
      funext u
      by_cases hu : u = t
      · subst hu; rw [hself, Function.update_self]
      · rw [hctx u hu, Function.update_of_ne hu]
    have hok : ((s.dequeue q t rest).queueNow t { s.ctx t with state := .setResume }).SleepqOk := by
      rw [SleepqOk, hsq, hkey]
      exact h1
    have ht' : Queued ((s.dequeue q t rest).queueNow t { s.ctx t with state := .setResume }) t := by
      refine ⟨by rw [hself], ?_⟩
      rw [hsq]; exact Sleepq.at_enqueue_self _
    refine ⟨hok, ?_, fun u hu => ?_, fun _ => ht'⟩
    · rw [show ((s.dequeue q t rest).queueNow t { s.ctx t with state := .setResume }).pending =
        Sleepq.batch _ s.tmp s.runq from rfl, hsq, h3]
      rfl
    · by_cases hut : u = t
      · subst hut; exact ht'
      -- `u` stays in the trie, under the key it says
      have hin : u ∈ ((s.dequeue q t rest).queueNow t
          { s.ctx t with state := .setResume }).sleepq.all := by
        rw [hsq, h2]
        exact .inr (Sleepq.mem_all.2 ⟨_, hu.2⟩)
      have hat := (hok.at_key hin).1
      rw [hctx u hut, h.filed _ _ hu.2] at hat
      exact ⟨by rw [hctx u hut]; exact hu.1, hat⟩

/-- The loop of `resume_waitq_all`. -/
theorem resumeWaitqN_queued : ∀ {n : Nat} {s s' : St}, resumeWaitqN n s q = some s' →
    (s.wq.queue q).length = n → s.SleepqOk → (∀ t ∈ s.wq.queue q, t ∉ s.pending) →
    (∀ u, Queued s u → Queued s' u) ∧
      (∀ t ∈ s.wq.queue q, (s.ctx t).f ≠ none → Queued s' t) ∧
      (∀ x, (s.ctx x).f = none → s'.ctx x = s.ctx x)
  | 0, s, s', h, hn, hok, _ => by
    cases h
    have hnil := List.length_eq_zero_iff.1 hn
    refine ⟨fun u hu => hu, fun t ht _ => ?_, fun x _ => rfl⟩
    rw [hnil] at ht; cases ht
  | n + 1, s, s', h, hn, hok, hp => by
    obtain ⟨s1, h1, h2⟩ := Option.bind_eq_some_iff.1 h
    rcases resumeWaitqOne_cases h1 with ⟨hq, -⟩ | ⟨t, rest, hq, hne, rfl⟩
    · rw [hq] at hn; cases hn
    · have hq1 : (s.woken q t rest).wq.queue q = rest := by rw [woken_queue, Function.update_self]
      obtain ⟨w1, w2, w3, w4⟩ := woken_sleepqOk q rest hok (hp t (by simp [hq]))
      obtain ⟨r1, r2, r3⟩ := resumeWaitqN_queued h2
        (by rw [hq1]; simpa [hq] using hn) w1
        (fun u hu => by rw [w2]; exact hp u (by rw [hq1] at hu; simp [hq, hu]))
      refine ⟨fun u hu => r1 u (w3 u hu), ?_, ?_⟩
      · intro u hu hf
        rw [hq] at hu
        rcases List.mem_cons.1 hu with rfl | hu
        · exact r1 u (w4 hf)
        · exact r2 u (by rw [hq1]; exact hu) (by rw [woken_f]; exact hf)
      · intro x hx
        rw [r3 x (by rw [woken_f]; exact hx), woken_dead hx]

/-- The wait queue of a context that is freed is empty. -/
theorem pushFree_empties (h : (s.sleepqRemove c).pushFree c = some s') :
    s'.wq.queue (.ctx c) = [] := by
  obtain ⟨s2, h2, rfl⟩ := Option.map_eq_some_iff.1 h
  obtain ⟨s1, -, rfl⟩ := Option.map_eq_some_iff.1 h2
  refine List.eq_nil_iff_forall_not_mem.2 fun t ht => ?_
  have := leave_subset (w := s1.wq.setQueue (.ctx c) []) ht
  simp [WaitQs.setQueue] at this

/-- `sleepq_remove` and `push_free_ctx` of `c`. -/
theorem pushFree_queued (h : (s.sleepqRemove c).pushFree c = some s') (hok : s.SleepqOk)
    (hp : ∀ t ∈ s.wq.queue (.ctx c), t ∉ s.pending) :
    s'.ctx c = (s.ctx c).cleared ∧ c ∈ s'.freeList ∧
      s'.wq.queue (.ctx c) = [] ∧
      ∀ t ∈ s.wq.queue (.ctx c), t ≠ c → (s.ctx t).f ≠ none → Queued s' t := by
  have hempty := pushFree_empties h
  obtain ⟨s2, h2, rfl⟩ := Option.map_eq_some_iff.1 h
  obtain ⟨s1, h1, rfl⟩ := Option.map_eq_some_iff.1 h2
  obtain ⟨k1, k2, k3⟩ := hok.remove c
  -- the context is cleared and out of the sleep queue when the loop starts
  have hok1 : ((s.sleepqRemove c).setCtx c (s.ctx c).cleared).SleepqOk := by
    refine Sleepq.Ok.congr_key k1 fun x hx => ?_
    have hxc : x ≠ c := ((k2 x).1 hx).2
    simp [setCtx, hxc, sleepqRemove]
  have hpend : ((s.sleepqRemove c).setCtx c (s.ctx c).cleared).pending = s.pending := k3
  obtain ⟨-, r1, r2⟩ := resumeWaitqN_queued
    (s := (s.sleepqRemove c).setCtx c (s.ctx c).cleared) h1 rfl hok1
    fun t ht => by rw [hpend]; exact hp t ht
  refine ⟨?_, List.mem_append_right _ (List.mem_singleton.2 rfl), hempty, ?_⟩
  · exact (r2 c (by simp [setCtx, Ctx.cleared])).trans (by simp [setCtx])
  · intro t ht htc hf
    exact r1 t ht (by simpa [setCtx, htc, sleepqRemove] using hf)

/-- The thread of `c` returns, and `errno` is not `EINTR`. -/
theorem exit_spec (h : s.swapBack c false = some s') (hst : (s.ctx c).state = .resumed)
    (hok : s.SleepqOk) (hp : ∀ t ∈ s.wq.queue (.ctx c), t ∉ s.pending) :
    s'.ctx c = (s.ctx c).cleared ∧ c ∈ s'.freeList ∧ s'.wq.queue (.ctx c) = [] ∧
      ∀ t ∈ s.wq.queue (.ctx c), t ≠ c → (s.ctx t).f ≠ none → Queued s' t := by
  unfold swapBack at h
  simp only [Bool.false_eq_true, if_false, hst, CoState.resumable, if_true] at h
  split at h
  · cases h
  · exact pushFree_queued (s := { s with me := none, pc := .sched }) h hok hp

end

end Mnthr

import Mnthr.L5Runs.Places

/-!
# What resumes a blocked thread

In every run of the fragment without interrupts, timed waits and `fini`
(`Plain`), `wakeups`: a thread that sleeps is resumed by a sift after its
deadline, a thread that waits on a condition variable after a signal that took
it off the queue, a thread that joins after the exit of the thread it joined;
and an exit queues everybody who has joined.
-/
namespace Mnthr
open St

section
variable {D : Diag} {e : Event} {s s' : St} {t x : Ptr} {q : Waitq}

/-! ## Calls -/

theorem sleep_call {w : TimeUnit} {v : Nat} (h : Inv s) (hpc : s.pc = .user t)
    (hs : s.step D (.block (.sleep w v) false) = some s') :
    s'.started t ∧ (s'.ctx t).uc = .sleep (deadline s.now w v) := by
  have hme := h.me t (by rw [hpc]; rfl)
  simp only [step, hpc, St.block] at hs
  split at hs
  swap
  · cases hs
  split at hs
  swap
  · cases hs
  simp only [sleepCall, setState_eq hme, Option.bind_some] at hs
  have hk : Suspends (s.inLib t .sleep) t (.sleep (deadline s.now w v)) :=
    ⟨rfl, by simp [inLib, setCtx, Call.coState], by simp [Call.queue]⟩
  have hy : Micro D (.sleepYield t _ _ false false) (s.inLib t .sleep) s' :=
    sleepUntil_micro rfl hme hk (by simp [Call.target]) hs
  cases hy
  exact ⟨by simp [started, parked, asleep, inLib, setCtx], by simp [parked, setCtx]⟩

theorem condWait_call {i : Nat} (h : Inv s) (hpc : s.pc = .user t)
    (hs : s.step D (.block (.condWait i) false) = some s') :
    s'.started t ∧ s'.wq.hosting t = some (.cond i) := by
  have hme := h.me t (by rw [hpc]; rfl)
  simp only [step, hpc, St.block] at hs
  split at hs
  swap
  · cases hs
  simp only [St.condWait, setState_eq hme, Option.bind_some, joinWaitq] at hs
  rw [appendMe_eq (show (s.inLib t .condwait).me = some t from hme), Option.bind_some] at hs
  have hst : ((s.inLib t .condwait).ctx t).state = .condwait := by simp [inLib, setCtx]
  have hy := yieldAs_micro (D := D) (s := (s.inLib t .condwait).appended (.cond i) t) rfl hme
    (append_suspends (k := .condWait i) rfl rfl hst) rfl hs
  cases hy
  exact ⟨by simp [started, parked, appended, inLib, setCtx],
    by simp [parked, appended, WaitQs.append, WaitQs.setHosting, setCtx]⟩

/-- A `mnthr_join` that suspends its caller has found a thread to wait for. -/
theorem join_call (h : Inv s) (hpc : s.pc = .user t)
    (hs : s.step D (.block (.join x) false) = some s') (hback : s'.pc = .sched) :
    s'.started t ∧ s'.wq.hosting t = some (.ctx x) ∧ s'.started x ∧ s'.ctx x = s.ctx x := by
  have hme := h.me t (by rw [hpc]; rfl)
  simp only [step, hpc, St.block] at hs
  split at hs
  swap
  · cases hs
  split at hs
  swap
  · cases hs
  unfold St.join at hs
  split at hs
  swap
  · cases hs
    rw [show (s.returns D.JOIN_FAILURE).pc = s.pc from rfl, hpc] at hback
    cases hback
  · rename_i hx
    have htx : x ≠ t := by
      intro heq
      subst heq
      rw [h.resumed x (.inl hpc)] at hx
      cases hx
    simp only [setState_eq hme, Option.bind_some, joinWaitq] at hs
    rw [appendMe_eq (show (s.inLib t .join).me = some t from hme), Option.bind_some] at hs
    have hst : ((s.inLib t .join).ctx t).state = .join := by simp [inLib, setCtx]
    have hy := yieldAs_micro (D := D) (s := (s.inLib t .join).appended (.ctx x) t) rfl hme
      (append_suspends (k := .join x) rfl rfl hst) rfl hs
    cases hy
    have hsame : (((s.inLib t .join).appended (.ctx x) t).parked t (.join x) false).ctx x =
        s.ctx x := by
      simp [parked, appended, inLib, setCtx, htx]
    refine ⟨by simp [started, parked, appended, inLib, setCtx],
      by simp [parked, appended, WaitQs.append, WaitQs.setHosting, setCtx], ?_, hsame⟩
    rw [started, hsame]
    exact (resumable_ne hx).1

/-! ## Wakers -/

theorem wakes_cond {i : Nat} (hp : Plain s e) (h : (.cond i, t) ∈ s.wakes e) :
    e = .call (.condSignalOne i) ∨ e = .call (.condSignalAll i) := by
  have he := hp.1
  unfold wakes at h
  split at h
  all_goals first
    | (cases he; done)
    | (obtain ⟨c, -, h⟩ := List.mem_flatMap.1 h
       first
         | (split at h; cases h; simp [wakesAll] at h)
         | simp [wakesAll] at h)
    | (simp only [wakesOne, wakesAll, List.mem_map, Prod.mk.injEq, Waitq.cond.injEq, reduceCtorEq,
        false_and, and_false, exists_false] at h; done)
    | (simp only [wakesOne, wakesAll, List.mem_map, Prod.mk.injEq, Waitq.cond.injEq] at h
       obtain ⟨_, -, rfl, -⟩ := h
       simp)
    | cases h

theorem wakes_ctx (hS : SleepInv s) (hp : Plain s e) (hs : s.step D e = some s')
    (h : (.ctx x, t) ∈ s.wakes e) : e = .exit false ∧ s.pc = .user x := by
  have he := hp.1
  have hn := hS.touched_next
  unfold wakes at h
  split at h
  all_goals first
    | (cases he; done)
    | (simp only [wakesOne, wakesAll, List.mem_map, Prod.mk.injEq, reduceCtorEq, false_and,
        and_false, exists_false] at h; done)
    | skip
  · refine ⟨rfl, ?_⟩
    simp only [step] at hs
    split at hs
    · rename_i c hpc
      obtain ⟨y, hy, hm⟩ := List.mem_flatMap.1 h
      rw [hpc] at hy
      simp only [Pc.runs, Option.toList_some, List.mem_singleton] at hy
      simp only [wakesAll, List.mem_map, Prod.mk.injEq, Waitq.ctx.injEq] at hm
      obtain ⟨_, -, hx, -⟩ := hm
      rw [hpc, ← hy, hx]
    · cases hs
  · obtain ⟨hn, -⟩ := List.append_eq_nil_iff.1 hn |>.symm
    have : s.wakes .next = [] := List.map_eq_nil_iff.1 hn
    simp only [wakes] at this
    rw [this] at h
    cases h
  · cases h

/-! ## Runs -/

/-- The run up to the switch: `t` stays where it is, and the last event takes
it from the batch. -/
theorem blocked_exec : ∀ {es : List Event} {s s' : St}, PlainInv s →
    Along (St.step D) Plain s es → exec (St.step D) s es = some s' → s.started t →
    Along (St.step D) (fun u _ => u.pc.runs ≠ some t) s es → s.pc.runs ≠ some t →
    s'.pc.runs = some t →
    ∃ pre u, es = pre ++ [.next] ∧ exec (St.step D) s pre = some u ∧
      u.step D .next = some s' ∧ PlainInv u ∧ u.pc.runs ≠ some t ∧ t ∈ u.pending ∧
      (u.ctx t).uc = (s.ctx t).uc
  | [], s, s', _, _, hs, _, _, hr, hr' => by cases hs; exact absurd hr' hr
  | e :: es, s, s', h, hp, hs, ht, hf, hr, hr' => by
    obtain ⟨u, hu, hes⟩ := exec_cons hs
    rcases blocked_step h.toUntimed hp.1.untimed hu ht hr with ⟨hur, huc⟩ | ⟨rfl, hn, hur⟩
    · have hut : u.started t := by
        rcases started_step h hp.1 hu ht with hut | ⟨-, hpc⟩
        · exact hut
        · exact absurd (by rw [hpc]; rfl) hr
      obtain ⟨pre, w, rfl, h1, h2, h3, h4, h5, h6⟩ :=
        blocked_exec (plain_step h hp.1 hu) (hp.2 u hu) hes hut (hf.2 u hu) hur hr'
      exact ⟨e :: pre, w, rfl, by simp only [exec, hu, Option.bind_some, h1], h2, h3, h4, h5,
        h6.trans huc⟩
    · cases es with
      | cons e' es => exact absurd hur (hf.2 u hu).1
      | nil =>
        cases hes
        exact ⟨[], s, rfl, rfl, hu, h, hr, mem_pending_of_nextPick hn, rfl⟩

end

/-- `t` calls `op` in `s₀` and is suspended by it, in `s₁`; at the end of `es`
it is switched to for the first time. -/
structure Resumed (D : Diag) (objs : Objs) (now : Nat) (t : Ptr) (op : Blk) (s₀ s₁ : St)
    (es : List Event) (s : St) : Prop where
  reach : ∃ es₀, Reaches D objs now es₀ s₀ ∧
    Along (St.step D) Plain (St.init objs now) (es₀ ++ .block op false :: es)
  caller : s₀.pc = .user t
  call : s₀.step D (.block op false) = some s₁
  blocked : s₁.pc = .sched
  run : exec (St.step D) s₁ es = some s
  first : Along (St.step D) (fun u _ => u.pc.runs ≠ some t) s₁ es
  resumed : s.pc.runs = some t

/-- The causes of a resume, and that an exit misses no joiner. -/
structure Wakeups (D : Diag) (objs : Objs) (now : Nat) : Prop where
  sleep : ∀ {t w v s₀ s₁ es s}, Resumed D objs now t (.sleep w v) s₀ s₁ es s →
    (∃ pre, es = pre ++ [.next]) ∧ deadline s₀.now w v < s.siftNow
  cond : ∀ {t i s₀ s₁ es s}, Resumed D objs now t (.condWait i) s₀ s₁ es s →
    ∃ pre e post a b, es = pre ++ e :: post ∧ exec (St.step D) s₁ pre = some a ∧
      a.step D e = some b ∧ (e = .call (.condSignalOne i) ∨ e = .call (.condSignalAll i)) ∧
      t ∈ a.wq.queue (.cond i) ∧ t ∉ b.wq.queue (.cond i)
  join : ∀ {t x s₀ s₁ es s}, Resumed D objs now t (.join x) s₀ s₁ es s →
    ∃ pre post a b, es = pre ++ .exit false :: post ∧ exec (St.step D) s₁ pre = some a ∧
      a.step D (.exit false) = some b ∧ a.pc = .user x ∧ t ∈ a.wq.queue (.ctx x) ∧
      (a.ctx x).id = (s₀.ctx x).id ∧
      Along (St.step D) (fun u _ => u.started x ∧ (u.ctx x).id = (s₀.ctx x).id) s₁ pre
  exit : ∀ {x es s s'}, Reaches D objs now es s →
    Along (St.step D) Plain (St.init objs now) es → s.pc = .user x →
    s.step D (.exit false) = some s' → ∀ t ∈ s.wq.queue (.ctx x),
      s'.sleepq.At SLEEP_RESUME_NOW t ∧ s'.sleepq.all.count t = 1

section
variable {D : Diag} {objs : Objs} {now : Nat} {t : Ptr} {op : Blk} {s₀ s₁ s : St}
  {es : List Event}

/-- The states on the way: the invariant holds, and `t` comes off the batch
at the end. -/
theorem Resumed.batch (h : Resumed D objs now t op s₀ s₁ es s) (ht : s₁.started t) :
    PlainInv s₀ ∧ PlainInv s₁ ∧ Along (St.step D) Plain s₁ es ∧
      ∃ pre u, es = pre ++ [.next] ∧ exec (St.step D) s₁ pre = some u ∧ u.step D .next = some s ∧
        PlainInv u ∧ u.pc.runs ≠ some t ∧ t ∈ u.pending ∧ (u.ctx t).uc = (s₁.ctx t).uc := by
  obtain ⟨es₀, hr, hp⟩ := h.reach
  have h₀ := plain_exec (plain_init objs now) (along_left hp) hr
  obtain ⟨hp₀, hp₁⟩ := along_append hp hr
  have hp₁ := hp₁ s₁ h.call
  have h₁ := plain_step h₀ hp₀ h.call
  exact ⟨h₀, h₁, hp₁, blocked_exec h₁ hp₁ h.run ht h.first (by rw [h.blocked]; simp [Pc.runs])
    h.resumed⟩

/-- On the way `t` has left its wait queue; `Q` says what else holds as long as
it is there. -/
theorem Resumed.left {q : Waitq} (h : Resumed D objs now t op s₀ s₁ es s) (ht : s₁.started t)
    {Q : St → Prop} (hq : s₁.wq.hosting t = some q) (hQ : Q s₁) :
    ∃ pre e post a b, es = pre ++ e :: post ∧ exec (St.step D) s₁ pre = some a ∧
      Along (St.step D) (fun u _ => u.wq.hosting t = some q ∧ Q u) s₁ pre ∧ PlainInv a ∧ Plain a e ∧
      a.pc.runs ≠ some t ∧ a.wq.hosting t = some q ∧ Q a ∧ a.step D e = some b ∧ PlainInv b ∧
      ¬ (b.wq.hosting t = some q ∧ Q b) := by
  obtain ⟨-, h₁, hp, pre, u, rfl, hpre, -, hu, hur, hpend, -⟩ := h.batch ht
  have hout : ¬ (u.wq.hosting t = some q ∧ Q u) := fun hh =>
    (hu.places.toCalls.waiting hu.tidy hh.1 hur).2 (.inr hpend)
  obtain ⟨p, e, post, a, b, rfl, ha, hal, hQa, hstep, hQb, -⟩ :=
    exec_split (Q := fun u => u.wq.hosting t = some q ∧ Q u) ⟨hq, hQ⟩ hout hpre
  rw [List.append_assoc] at hp
  have hf := h.first
  rw [List.append_assoc] at hf
  have hpa := along_append hp ha
  have hIa := plain_exec h₁ (along_left hp) ha
  exact ⟨p, e, post ++ [.next], a, b, by simp, ha, hal, hIa, hpa.1, (along_append hf ha).1, hQa.1,
    hQa.2, hstep, plain_step hIa hpa.1 hstep, hQb⟩

end

theorem wakeups (D : Diag) (objs : Objs) (now : Nat) : Wakeups D objs now where
  sleep := by
    intro t w v s₀ s₁ es s h
    obtain ⟨es₀, hr, -⟩ := h.reach
    obtain ⟨ht, huc⟩ := sleep_call hr.inv h.caller h.call
    obtain ⟨-, -, -, pre, u, rfl, -, hn, hu, -, hpend, huc'⟩ := h.batch ht
    refine ⟨⟨pre, rfl⟩, ?_⟩
    rw [siftNow_step hu.inv (by simp) hn, ← (hu.places.asleep t _ (huc'.trans huc)).2]
    exact hu.places.due t hpend
  cond := by
    intro t i s₀ s₁ es s h
    obtain ⟨es₀, hr, -⟩ := h.reach
    obtain ⟨ht, hq⟩ := condWait_call hr.inv h.caller h.call
    obtain ⟨pre, e, post, a, b, hes, ha, -, hIa, hpa, har, hqa, -, hs, hIb, hb⟩ :=
      h.left (Q := fun _ => True) ht hq trivial
    have hb : b.wq.hosting t ≠ some (.cond i) := fun hh => hb ⟨hh, trivial⟩
    refine ⟨pre, e, post, a, b, hes, ha, hs, ?_, (hIa.tidy.ok.mem t _).2 hqa, fun hm =>
      hb ((hIb.tidy.ok.mem t _).1 hm)⟩
    exact wakes_cond hpa ((dequeued_step hIa.toUntimed hpa.untimed hs har hqa).resolve_left hb)
  join := by
    intro t x s₀ s₁ es s h
    obtain ⟨es₀, hr, -⟩ := h.reach
    obtain ⟨ht, hq, hx, hctx⟩ := join_call hr.inv h.caller h.call h.blocked
    obtain ⟨pre, e, post, a, b, rfl, ha, hal, hIa, hpa, har, hqa, ⟨hxa, hid⟩, hs, hIb, hb⟩ :=
      h.left (Q := fun u => u.started x ∧ (u.ctx x).id = (s₀.ctx x).id) ht hq
        ⟨hx, by rw [hctx]⟩
    -- whichever part of the property the step ends, it is the exit of `x`
    obtain ⟨rfl, hpc⟩ : e = .exit false ∧ a.pc = .user x := by
      by_cases hqb : b.wq.hosting t = some (.ctx x)
      · rcases started_step hIa hpa hs hxa with hxb | hexit
        · refine absurd ⟨hqb, hxb, ?_⟩ hb
          rcases id_step hIa.toUntimed hpa.untimed hs (hIa.inv.live x hxa) with hf | hid'
          · exact absurd hf (hIb.inv.live x hxb)
          · exact hid'.trans hid
        · exact hexit
      · have hdeq := dequeued_step hIa.toUntimed hpa.untimed hs har hqa
        exact wakes_ctx hIa.sleep hpa hs (hdeq.resolve_left hqb)
    exact ⟨pre, post, a, b, rfl, ha, hs, hpc, (hIa.tidy.ok.mem t _).2 hqa, hid,
      along_mono (fun u _ hu => hu.2) hal⟩
  exit := by
    intro x es s s' hr hc hpc hs t ht
    have h := plain_exec (plain_init objs now) hc hr
    have h' := plain_step h (e := .exit false) ⟨rfl, rfl⟩ hs
    simp only [step, hpc] at hs
    split at hs
    swap
    · cases hs
    obtain ⟨-, -, -, hq⟩ := exit_spec hs (h.inv.resumed x (.inl hpc)) h.sleep.queue
      fun t ht => h.places.toCalls.notMem_pending h.tidy h.sleep ht
    have htq := (h.tidy.ok.mem t _).1 ht
    have htx : t ≠ x := by
      intro heq
      subst heq
      rw [h.tidy.user t hpc] at htq
      cases htq
    have hr : s.pc.runs ≠ some t := by
      rw [hpc]
      simpa [Pc.runs] using htx.symm
    have hf := h.inv.live t (resumable_ne (h.places.toCalls.waiting h.tidy htq hr).1.resumable).1
    have hat := (hq t ht htx hf).2
    exact ⟨hat, List.count_eq_one_of_mem h'.sleep.queue.nodup_all (Sleepq.mem_all.2 ⟨_, hat⟩)⟩

/-- Thread 0 is about to join thread 1. -/
def beforeJoin : List Event := [.call (.spawn 0), .call (.spawn 0), .tick 10, .sift, .next]

/-- Thread 1 exits, and the next sift resumes thread 0. -/
def joinedExits : List Event := [.next, .exit false, .sift, .next]

example : (sampleRun (beforeJoin ++ .block (.join 1) false :: joinedExits)).map St.pc =
    some (.post 0 (.join 1)) := by decide

end Mnthr

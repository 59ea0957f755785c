import Mnthr.L3Micro.Decompose

/-!
# What a micro-step does to one context

One lemma for each thing that an invariant reads of a context: its place in a
wait queue, its thread and id, whether it runs, its saved context, its
`expire_ticks`.
-/
namespace Mnthr
open St

section
variable {D : Diag} {a : Act} {s s' : St} {t x : Ptr} {q : Waitq} {n : Int}

theorem hosting_micro (hm : Micro D a s s') (h : s'.wq.hosting t = some q) :
    s.wq.hosting t = some q ∨ a = .append t q := by
  by_cases hx : a.subject = some t
  swap
  · exact .inl ((micro_sameFor hm hx).hosting ▸ h)
  cases hm with
  | @append _ c hpc q' =>
    cases hx
    right
    have : q' = q := by
      simpa [appended, WaitQs.append, WaitQs.setHosting] using h
    rw [this]
  | removeMe | unlink =>
    cases hx
    simp [takenOff, WaitQs.setHosting] at h
  | @wake _ q' _ rest =>
    cases hx
    have : (s.woken q' t rest).wq.hosting t = none := by
      unfold woken
      split <;> simp [dequeue, WaitQs.setHosting, queueNow, sleepqEnqueue, sleepqRemove, setCtx]
    rw [this] at h
    cases h
  | discard hpc hp => left; cases hp <;> exact h
  | enter hpc hp hst hs =>
    left
    rcases enter_cases hs with ⟨-, rfl⟩ | ⟨-, -, rfl⟩ <;> cases hp <;> exact h
  | env | gcList | sift => cases hx
  | _ => exact .inl h

theorem queue_micro (hm : Micro D a s s') (h : t ∈ s'.wq.queue q) :
    t ∈ s.wq.queue q ∨ a = .append t q := by
  cases hm with
  | @append _ c hpc q' =>
    by_cases hq : q = q'
    · subst hq
      simp only [appended, WaitQs.append, WaitQs.setHosting, WaitQs.setQueue, Function.update_self,
        List.mem_append, List.mem_singleton] at h
      rcases h with h | rfl
      · exact .inl (leave_subset h)
      · exact .inr rfl
    · left
      simp only [appended, WaitQs.append, WaitQs.setHosting, WaitQs.setQueue,
        Function.update_of_ne hq] at h
      exact leave_subset h
  | @removeMe _ c y =>
    left
    by_cases hq : q = .ctx y
    · subst hq
      simp only [takenOff, WaitQs.unlink, WaitQs.setHosting, WaitQs.setQueue,
        Function.update_self] at h
      exact List.mem_of_mem_erase h
    · simpa only [takenOff, WaitQs.unlink, WaitQs.setHosting, WaitQs.setQueue,
        Function.update_of_ne hq] using h
  | @wake _ q' u rest hq =>
    left
    rw [woken_queue] at h
    by_cases hqq : q = q'
    · subst hqq
      rw [Function.update_self] at h
      rw [hq]; exact List.mem_cons_of_mem _ h
    · rwa [Function.update_of_ne hqq] at h
  | unlink => exact .inl (leave_subset h)
  | discard hpc hp => left; cases hp <;> exact h
  | enter hpc hp hst hs =>
    left
    rcases enter_cases hs with ⟨-, rfl⟩ | ⟨-, -, rfl⟩ <;> cases hp <;> exact h
  | sift hs =>
    obtain ⟨-, -, -, rfl⟩ := sift_cases hs
    exact .inl h
  | _ => exact .inl h

/-- What is not created or cleared keeps its thread, its id, and its life. -/
theorem life_micro (hm : Micro D a s s') (hc : a ≠ .create x)
    (hd : ∀ poll, a ≠ .die x ∧ a ≠ .discard x poll ∧ a ≠ .release x) :
    (s'.ctx x).f = (s.ctx x).f ∧ (s'.ctx x).id = (s.ctx x).id ∧
      ((s'.ctx x).state = .dormant → (s.ctx x).state = .dormant) := by
  by_cases hx : a.subject = some x
  swap
  · rw [(micro_sameFor hm hx).ctx]; exact ⟨rfl, rfl, id⟩
  cases hm with
  | env | gcList | sift => cases hx
  | append | removeMe | complete | quit | unlink => exact ⟨rfl, rfl, id⟩
  | attr | rc | expire | drop => cases hx; simp [setCtx]
  | @enterLib _ c st hpc hst =>
    cases hx
    have : st ≠ .dormant := by intro heq; subst heq; cases hst
    simp [inLib, setCtx, this]
  | yield | sleepYield => cases hx; simp [parked, asleep, setCtx]
  | resume | interrupt => cases hx; simp [queueNow, sleepqEnqueue, sleepqRemove, setCtx]
  | resumeFast => cases hx; simp [setCtx]
  | wake =>
    cases hx
    unfold woken
    split
    · exact ⟨rfl, rfl, id⟩
    · simp [queueNow, sleepqEnqueue, sleepqRemove, setCtx]
  | createFree | createNew => exact absurd (congrArg Act.create (Option.some.inj hx)) hc
  | die => exact absurd (congrArg Act.die (Option.some.inj hx)) (hd false).1
  | @discard _ _ c poll =>
    exact absurd (congrArg (Act.discard · poll) (Option.some.inj hx)) (hd poll).2.1
  | release => exact absurd (congrArg Act.release (Option.some.inj hx)) (hd false).2.2
  | enter hpc hp hst hs =>
    cases hx
    rcases enter_cases hs with ⟨-, rfl⟩ | ⟨-, -, rfl⟩ <;>
      cases hp <;> simp [setCtx, popTmp, popRunq, clearExpire]

theorem cleared_micro (poll : Bool) (hm : Micro D a s s')
    (ha : a = .die x ∨ a = .discard x poll ∨ a = .release x) : (s'.ctx x).f = none := by
  rcases ha with rfl | rfl | rfl
  all_goals cases hm; simp [buried, setCtx, Ctx.cleared]

/-- Who has a thread had it before, with the same id. -/
theorem alive_before (hm : Micro D a s s') (hc : a ≠ .create x) (hf : (s'.ctx x).f ≠ none) :
    (s.ctx x).f ≠ none ∧ (s'.ctx x).id = (s.ctx x).id ∧
      ((s'.ctx x).state = .dormant → (s.ctx x).state = .dormant) := by
  obtain ⟨h1, h2, h3⟩ := life_micro hm hc fun poll =>
    ⟨fun he => hf (cleared_micro poll hm (.inl he)),
      fun he => hf (cleared_micro poll hm (.inr (.inl he))),
      fun he => hf (cleared_micro poll hm (.inr (.inr he)))⟩
  exact ⟨h1 ▸ hf, h2, h3⟩

theorem gone_micro (hm : Micro D a s s') (hc : a ≠ .create x) (hf : (s'.ctx x).f ≠ none)
    (hg : s'.gone x n) : (s.ctx x).f ≠ none ∧ s.gone x n := by
  obtain ⟨h1, h2, h3⟩ := alive_before hm hc hf
  exact ⟨h1, hg.imp (h2 ▸ ·) h3⟩

theorem enter_runs {poll : Bool} (hm : Micro D (.enter t poll) s s') : s'.pc.runs = some t := by
  cases hm with
  | enter hpc hp hst hs => rcases enter_cases hs with ⟨-, rfl⟩ | ⟨-, -, rfl⟩ <;> rfl

/-- Who runs is who ran, or was switched to. -/
theorem runs_micro (hm : Micro D a s s') (h : s'.pc.runs = some t) :
    s.pc.runs = some t ∨ ∃ poll, a = .enter t poll := by
  by_cases hx : a.subject = some t
  swap
  · exact .inl ((micro_sameFor hm hx).runs.1 h)
  cases hm with
  | env | gcList | sift => cases hx
  | enterLib hpc =>
    cases hx
    left
    rcases hpc with hpc | ⟨k, hpc, -⟩ <;> rw [hpc] <;> rfl
  | yield | sleepYield | die | quit => cases h
  | removeMe hpc | complete _ _ hpc => cases hx; exact .inl (by rw [hpc]; rfl)
  | wake => unfold woken at h; split at h <;> exact .inl h
  | discard hpc hp => left; cases hp <;> exact h
  | @enter _ _ _ c poll => cases hx; exact .inr ⟨poll, rfl⟩
  | _ => exact .inl h

/-- Who stops running yields or exits. -/
theorem leaves_micro (hm : Micro D a s s') (h : s.pc.runs = some t) (h' : s'.pc.runs ≠ some t) :
    (∃ k b, a = .yield t k b) ∨ (∃ d k b dormant, a = .sleepYield t d k b dormant) ∨ a = .die t ∨
      a = .quit t := by
  by_cases hx : a.subject = some t
  swap
  · exact absurd ((micro_sameFor hm hx).runs.2 h) h'
  cases hm with
  | env | gcList | sift => cases hx
  | enterLib | removeMe | complete => cases hx; exact absurd rfl h'
  | yield => cases hx; exact .inl ⟨_, _, rfl⟩
  | sleepYield => cases hx; exact .inr (.inl ⟨_, _, _, _, rfl⟩)
  | die => cases hx; exact .inr (.inr (.inl rfl))
  | quit => cases hx; exact .inr (.inr (.inr rfl))
  | wake => unfold woken at h'; split at h' <;> exact absurd h h'
  | discard hpc hp => rw [hpc] at h; cases h
  | enter hpc => rw [hpc] at h; cases h
  | _ => exact absurd h h'

/-- Who writes a saved context. -/
theorem uc_cases (hm : Micro D a s s') : (s'.ctx t).uc = (s.ctx t).uc ∨
    (∃ k b, a = .yield t k b ∧ (s'.ctx t).uc = k) ∨
    (∃ d k b dormant, a = .sleepYield t d k b dormant ∧ (s'.ctx t).uc = k) ∨
    (a = .create t ∧ (s'.ctx t).uc = .start) ∨
    ∃ poll, a = .enter t poll ∧ (s'.ctx t).uc = .gone := by
  by_cases hx : a.subject = some t
  swap
  · exact .inl (by rw [(micro_sameFor hm hx).ctx])
  cases hm with
  | env | gcList | sift => cases hx
  | append | removeMe | complete | quit | unlink => exact .inl rfl
  | attr | rc | expire | drop | release => cases hx; exact .inl (by simp [setCtx, Ctx.cleared])
  | enterLib => cases hx; exact .inl (by simp [inLib, setCtx])
  | yield => cases hx; exact .inr (.inl ⟨_, _, rfl, by simp [St.parked, setCtx]⟩)
  | sleepYield =>
    cases hx
    exact .inr (.inr (.inl ⟨_, _, _, _, rfl, by simp [St.parked, setCtx]⟩))
  | resume | interrupt =>
    cases hx
    exact .inl (by simp [queueNow, sleepqEnqueue, sleepqRemove, setCtx])
  | resumeFast => cases hx; exact .inl (by simp [setCtx])
  | wake =>
    cases hx
    left
    unfold woken
    split
    · rfl
    · simp [queueNow, sleepqEnqueue, sleepqRemove, setCtx]
  | createFree | createNew => cases hx; exact .inr (.inr (.inr (.inl ⟨rfl, by simp [setCtx]⟩)))
  | die => cases hx; exact .inl (by simp [buried, setCtx, Ctx.cleared])
  | discard hpc hp =>
    cases hx
    left
    cases hp <;> simp [buried, setCtx, Ctx.cleared, popTmp, popRunq, clearExpire]
  | @enter _ s1 _ c poll hpc hp hst hs =>
    cases hx
    have huc : (s1.ctx t).uc = (s.ctx t).uc := by
      cases hp <;> simp [popTmp, popRunq, clearExpire, setCtx]
    rcases enter_cases hs with ⟨hu, rfl⟩ | ⟨-, -, rfl⟩
    · exact .inl (by simpa [setCtx] using huc)
    · exact .inr (.inr (.inr (.inr ⟨poll, rfl, by simp [setCtx]⟩)))

/-- A thread that does not run keeps its saved context until it is switched to. -/
theorem uc_micro (hm : Micro D a s s') (hr : s.pc.runs ≠ some t) (hc : a ≠ .create t)
    (he : ∀ poll, a ≠ .enter t poll) : (s'.ctx t).uc = (s.ctx t).uc := by
  rcases uc_cases (t := t) hm with h | ⟨k, b, rfl, -⟩ | ⟨d, k, b, dormant, rfl, -⟩ | ⟨rfl, -⟩ |
    ⟨poll, rfl, -⟩
  · exact h
  · cases hm with
    | yield hpc => exact absurd (by rw [hpc]; rfl) hr
  · cases hm with
    | sleepYield hpc => exact absurd (by rw [hpc]; rfl) hr
  · exact absurd rfl hc
  · exact absurd rfl (he poll)

/-- A thread that is back in its call was, or has just been switched to. -/
theorem post_micro {k : Call} (hm : Micro D a s s') (h : s'.pc = .post t k) :
    s.pc = .post t k ∨ ∃ poll, a = .enter t poll ∧ (s.ctx t).uc = k := by
  cases hm with
  | enterLib | removeMe | complete | yield | sleepYield | die | quit => cases h
  | wake => left; unfold woken at h; split at h <;> exact h
  | discard hpc hp => left; cases hp <;> exact h
  | @enter _ s1 _ c poll hpc hp hst hs =>
    have huc : (s1.ctx c).uc = (s.ctx c).uc := by
      cases hp <;> simp [popTmp, popRunq, clearExpire, setCtx]
    rcases enter_cases hs with ⟨-, rfl⟩ | ⟨-, -, rfl⟩ <;> cases h
    exact .inr ⟨poll, rfl, huc.symm⟩
  | sift hs =>
    obtain ⟨-, -, -, rfl⟩ := sift_cases hs
    exact .inl h
  | _ => exact .inl h

/-- The context that a micro-step puts in the sleep queue. -/
def Act.files : Act → Option Ptr
  | .sleepYield c _ _ _ _ | .resume c | .resumeFast c | .interrupt c | .wake _ c => some c
  | _ => none

theorem files_subject (h : a.files = some t) : a.subject = some t := by
  cases a <;> simp_all [Act.files, Act.subject]

/-- Who writes `expire_ticks`. -/
theorem expire_micro (hm : Micro D a s s') : (s'.ctx t).expireTicks = (s.ctx t).expireTicks ∨
    (s'.ctx t).expireTicks = SLEEP_UNDEFINED ∨ (∃ d, a = .expire t d) ∨
    (a.files = some t ∧ (s.ctx t).f ≠ none) ∨ s.pc.runs = some t ∧ a.files = some t := by
  by_cases hx : a.subject = some t
  swap
  · exact .inl (by rw [(micro_sameFor hm hx).ctx])
  cases hm with
  | env | gcList | sift => cases hx
  | append | removeMe | complete | quit | unlink => exact .inl rfl
  | attr | rc | drop => cases hx; exact .inl (by simp [setCtx])
  | enterLib => cases hx; exact .inl (by simp [inLib, setCtx])
  | yield => cases hx; exact .inl (by simp [St.parked, setCtx])
  | expire => cases hx; exact .inr (.inr (.inl ⟨_, rfl⟩))
  | sleepYield hpc =>
    cases hx
    exact .inr (.inr (.inr (.inr ⟨by rw [hpc]; rfl, rfl⟩)))
  | resume hne hf | interrupt hne hf | resumeFast hne hf =>
    cases hx
    exact .inr (.inr (.inr (.inl ⟨rfl, hf⟩)))
  | wake =>
    cases hx
    by_cases hf : (s.ctx t).f = none
    · left; unfold woken; rw [if_pos hf]; rfl
    · exact .inr (.inr (.inr (.inl ⟨rfl, hf⟩)))
  | createFree => cases hx; exact .inl (by simp [setCtx])
  | createNew => cases hx; exact .inr (.inl (by simp [setCtx, Ctx.init]))
  | release => cases hx; exact .inr (.inl (by simp [setCtx, Ctx.cleared]))
  | die | discard => cases hx; exact .inr (.inl (by simp [buried, setCtx, Ctx.cleared]))
  | @enter _ s1 _ c poll hpc hp hst hs =>
    cases hx
    have h1 : (s1.ctx t).expireTicks = (s.ctx t).expireTicks ∨
        (s1.ctx t).expireTicks = SLEEP_UNDEFINED := by
      cases hp <;> simp [popTmp, popRunq, clearExpire, setCtx]
    have h2 : (s'.ctx t).expireTicks = (s1.ctx t).expireTicks := by
      rcases enter_cases hs with ⟨-, rfl⟩ | ⟨-, -, rfl⟩ <;> simp [setCtx]
    rw [h2]
    exact h1.imp id .inl

/-- How a thread leaves a wait queue. -/
theorem hosting_lost (hm : Micro D a s s') (h : s.wq.hosting t ≠ none) (h' : s'.wq.hosting t = none) :
    (∃ q, a = .wake q t) ∨ (∃ q, a = .removeMe t q) ∨ a = .unlink t := by
  by_cases hx : a.subject = some t
  swap
  · exact absurd ((micro_sameFor hm hx).hosting ▸ h') h
  cases hm with
  | env | gcList | sift => cases hx
  | append => cases hx; simp [appended, WaitQs.append, WaitQs.setHosting] at h'
  | removeMe => cases hx; exact .inr (.inl ⟨_, rfl⟩)
  | wake => cases hx; exact .inl ⟨_, rfl⟩
  | unlink => cases hx; exact .inr (.inr rfl)
  | discard hpc hp => cases hp <;> exact absurd h' h
  | enter hpc hp hst hs =>
    rcases enter_cases hs with ⟨-, rfl⟩ | ⟨-, -, rfl⟩ <;> cases hp <;> exact absurd h' h
  | _ => exact absurd h' h

/-- How a context comes to life. -/
theorem started_micro (hm : Micro D a s s') (h : (s.ctx t).state = .dormant)
    (h' : (s'.ctx t).state ≠ .dormant) :
    (a.files = some t ∧ (s.ctx t).f ≠ none) ∨ s.pc.runs = some t := by
  by_cases hx : a.subject = some t
  swap
  · rw [(micro_sameFor hm hx).ctx] at h'; exact absurd h h'
  cases hm with
  | env | gcList | sift => cases hx
  | append | removeMe | complete | quit | unlink => exact absurd h h'
  | attr | rc | expire | drop => cases hx; simp [setCtx, h] at h'
  | enterLib hpc =>
    cases hx
    right
    rcases hpc with hpc | ⟨k, hpc, -⟩ <;> rw [hpc] <;> rfl
  | yield hpc | sleepYield hpc => cases hx; exact .inr (by rw [hpc]; rfl)
  | resume hne hf | interrupt hne hf | resumeFast hne hf => cases hx; exact .inl ⟨rfl, hf⟩
  | wake =>
    cases hx
    by_cases hf : (s.ctx t).f = none
    · unfold woken at h'; rw [if_pos hf] at h'; exact absurd h h'
    · exact .inl ⟨rfl, hf⟩
  | createFree => cases hx; simp [setCtx, h] at h'
  | createNew => cases hx; simp [setCtx, Ctx.init] at h'
  | release => cases hx; simp [setCtx, Ctx.cleared] at h'
  | die | discard => cases hx; simp [buried, setCtx, Ctx.cleared] at h'
  | enter hpc hp hst => cases hx; rw [h] at hst; cases hst

theorem siftNow_micro (hm : Micro D a s s') (ha : a ≠ .sift) : s'.siftNow = s.siftNow := by
  cases hm with
  | wake => unfold woken; split <;> rfl
  | discard hpc hp => cases hp <;> rfl
  | enter hpc hp hst hs =>
    rcases enter_cases hs with ⟨-, rfl⟩ | ⟨-, -, rfl⟩ <;> cases hp <;> rfl
  | sift => exact absurd rfl ha
  | _ => rfl

/-! ## One resume of the sift -/

/-- The sift takes the next context of its batch and gives it to
`poller_resume`, which switches to it, or finds it dead and frees it. -/
theorem next_cases (h : s.step D .next = some s') : ∃ t u, s.pc = .sched ∧ s.nextPick = some t ∧
    Picked s t false u ∧
    (((s.ctx t).state.resumable ∧ u.enter t = some s') ∨
      ((s.ctx t).state.resumable = false ∧ (u.sleepqRemove t).pushFree t = some s')) := by
  have split_resume : ∀ {t : Ptr} {u : St}, (u.ctx t).state = (s.ctx t).state →
      u.pollerResume t = some s' →
      ((s.ctx t).state.resumable ∧ u.enter t = some s') ∨
        ((s.ctx t).state.resumable = false ∧ (u.sleepqRemove t).pushFree t = some s') := by
    intro t u hst hs
    unfold pollerResume at hs
    rw [hst] at hs
    split at hs
    · exact .inl ⟨‹_›, hs⟩
    · rename_i hr
      exact .inr ⟨by simpa using hr, hs⟩
  simp only [step, St.next] at h
  split at h
  · cases h
  · rename_i hpc
    have hpc := not_not.1 hpc
    split at h
    · rename_i c rest htmp
      split at h
      · refine ⟨c, _, hpc, by simp [nextPick, htmp], .tmp ‹_› htmp, split_resume ?_ h⟩
        simp [popTmp, clearExpire, setCtx]
      · cases h
    · rename_i c rest htmp hrunq
      split at h
      · refine ⟨c, _, hpc, by simp [nextPick, htmp, hrunq], .runq ‹_› htmp hrunq, split_resume ?_ h⟩
        simp [popRunq, clearExpire, setCtx]
      · cases h
    · cases h

/-- A picked context has `expire_ticks` cleared, and nothing else of it changed. -/
theorem Picked.ctx_eq {u : St} (h : Picked s t false u) :
    u.ctx = Function.update s.ctx t { s.ctx t with expireTicks := SLEEP_UNDEFINED } := by
  cases h with
  | tmp _ _ => rfl
  | runq _ _ _ => rfl

theorem pushFree_pc (h : (s.sleepqRemove t).pushFree t = some s') : s'.pc = s.pc := by
  refine (pushFree_micro (D := .sample) h).inv
    (I := fun u => u.pc = s.pc) ?_ rfl
  intro a u v ha hm hu
  rcases ha with ⟨x, -, rfl⟩ | rfl
  · cases hm with
    | wake => unfold woken; split <;> exact hu
  · cases hm with
    | unlink => exact hu

/-- A thread that is switched to goes on in the call it saved. -/
theorem next_post (h : s.step D .next = some s') (hn : s.nextPick = some t)
    (hr : (s.ctx t).state.resumable) (hu : (s.ctx t).uc ≠ .start) :
    s'.pc = .post t (s.ctx t).uc := by
  obtain ⟨c, u, -, hc, hp, hcase⟩ := next_cases h
  cases hn.symm.trans hc
  have huc : (u.ctx t).uc = (s.ctx t).uc := by rw [hp.ctx_eq, Function.update_self]
  rcases hcase with ⟨-, hs⟩ | ⟨hd, -⟩
  · rcases enter_cases hs with ⟨h0, -⟩ | ⟨-, -, rfl⟩
    · exact absurd (huc ▸ h0) hu
    · rw [← huc]
  · rw [hr] at hd
    cases hd

/-- Inside a call, only the call itself and the clock go on. -/
theorem busy_step {e : Event} (hpc : s.pc ≠ .sched) (hu : ∀ t, s.pc ≠ .user t) (hc : ∀ b, e ≠ .cont b)
    (h : s.step D e = some s') : s'.ctx = s.ctx ∧ s'.wq = s.wq ∧ s'.pc = s.pc := by
  cases e with
  | call op =>
    simp only [step] at h
    split at h
    · rename_i hm
      unfold mayCall at hm
      split at hm
      · exact absurd ‹_› (hu _)
      · exact absurd ‹_› hpc
      · cases hm
    · cases h
  | block op b | exit b => simp [step] at h
  | cont b => exact absurd rfl (hc b)
  | sift => simp [step, St.sift, hpc] at h
  | next => simp [step, St.next, hpc] at h
  | tick v =>
    simp only [step] at h
    split at h
    · cases h; exact ⟨rfl, rfl, rfl⟩
    · cases h
  | pollResume c rc => simp [step, St.pollResume, hpc] at h
  | pollFast c => simp [step, St.pollFast, hpc] at h

end

end Mnthr

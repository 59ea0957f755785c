import Mnthr.L4Inv.Exit
import Mnthr.L4Inv.Waitqs

/-!
# Who is still in a wait queue, and why

`Tidy`: a thread between calls is in no wait queue, and a thread in one is
suspended in a wait on it. In an untimed wait it is not in the sleep queue, so
that only the owner of the queue resumes it, and takes it off the queue before
that. In a timed wait the context it waits for is alive, so that the call
takes its caller off the queue when it goes on.

`Clean` is the condition on an event: nobody interrupts a thread in an untimed
wait, and `mnthr_peek` looks at started threads only.
-/
namespace Mnthr
open St

section
variable {D : Diag} {a : Act} {s s' : St} {x : Ptr}

/-- In order, a thread is lost only by its own exit. -/
theorem die_of_cleared (h : SleepInv s) (ha : a.calm s) (hm : Micro D a s s') (hc : a ≠ .create x)
    (hf : (s.ctx x).f ≠ none) (hf' : (s'.ctx x).f = none) : a = .die x := by
  by_contra hd
  by_cases hr : a = .release x
  · subst hr
    cases hm with
    | release hl => exact hf (h.dead x (hl.imp id And.left))
  · refine hf ((life_micro hm hc fun poll => ⟨hd, ?_, hr⟩).1 ▸ hf')
    intro heq
    subst heq
    cases hm with
    | discard hpc hp hst => exact h.not_discard ha hp hst

end

/-! ## Waiting -/

/-- `t` is suspended in a wait on `q`. -/
structure Waiting (s : St) (t : Ptr) (q : Waitq) : Prop where
  queue : (s.ctx t).uc.queue = some q
  state : (s.ctx t).state = (s.ctx t).uc.coState ∨
    ((s.ctx t).state = .setInterrupt ∧ (s.ctx t).uc.target ≠ none)
  out : (s.ctx t).uc.target = none → ¬ s.filed t
  alive : ∀ x n, (s.ctx t).uc.target = some (x, n) → (s.ctx x).f ≠ none → ¬ s.gone x n

section
variable {s s' : St} {t : Ptr} {q : Waitq}

theorem Waiting.live (h : Waiting s t q) :
    (s.ctx t).state.queueable ∧ (s.ctx t).state ≠ .signalSubscribe ∧ (s.ctx t).uc ≠ .start := by
  have hq := h.queue
  refine ⟨?_, ?_, fun hu => by rw [hu] at hq; cases hq⟩
  all_goals
    rcases h.state with hs | ⟨hs, -⟩ <;> rw [hs]
    · cases hu : (s.ctx t).uc <;> simp_all [Call.queue, Call.coState, CoState.queueable,
        CoState.resumable, CoState.polling]
    · decide

theorem Waiting.resumable (h : Waiting s t q) : (s.ctx t).state.resumable :=
  (Bool.and_eq_true_iff.1 h.live.1).1

theorem Waiting.keep (h : Waiting s t q) (hu : (s'.ctx t).uc = (s.ctx t).uc)
    (hs : (s'.ctx t).state = (s.ctx t).state ∨
      ((s'.ctx t).state = .setInterrupt ∧ (s.ctx t).uc.target ≠ none))
    (ho : (s.ctx t).uc.target = none → s'.filed t → s.filed t)
    (hl : ∀ x n, (s'.ctx x).f ≠ none → s'.gone x n → (s.ctx x).f ≠ none ∧ s.gone x n) :
    Waiting s' t q := by
  refine ⟨hu ▸ h.queue, ?_, fun ht hf => ?_, fun x n ht hf hg => ?_⟩
  · rw [hu]
    rcases hs with hs | hs
    · rw [hs]; exact h.state
    · exact .inr hs
  · rw [hu] at ht
    exact h.out ht (ho ht hf)
  · rw [hu] at ht
    obtain ⟨h1, h2⟩ := hl x n hf hg
    exact h.alive x n ht h1 h2

end

structure Tidy (s : St) : Prop where
  ok : s.wq.Ok
  user : ∀ t, s.pc = .user t → s.wq.hosting t = none
  back : ∀ t k q, s.pc = .post t k → s.wq.hosting t = some q →
    ∃ x n, k.target = some (x, n) ∧ q = .ctx x ∧ ¬ s.gone x n
  parked : ∀ t q, s.wq.hosting t = some q → s.pc.runs ≠ some t → Waiting s t q

/-- A context without a thread has no waiters. -/
def Unwaited (s : St) : Prop := ∀ x, (s.ctx x).f = none → s.wq.queue (.ctx x) = []

/-- The event interrupts no thread that is in the queue of an untimed wait,
and looks at a started thread, if at any. -/
def Clean (s : St) (e : Event) : Prop :=
  Calm s e ∧ (∀ t ∈ s.interrupts e, s.wq.hosting t ≠ none → (s.ctx t).uc.target ≠ none) ∧
    ∀ x ∈ e.peeks, (s.ctx x).state ≠ .dormant

instance (s : St) (e : Event) : Decidable (Clean s e) := by unfold Clean; infer_instance

theorem tidy_init (objs : Objs) (now : Nat) :
    Tidy (St.init objs now) ∧ Unwaited (St.init objs now) := by
  refine ⟨⟨(winv_init objs now).ok, ?_, ?_, ?_⟩, ?_⟩
  all_goals simp [St.init, WaitQs.empty, Unwaited]

/-! ## Events -/

/-- What holds within the event `e` that began in `s`. -/
structure TidyAt (s : St) (e : Event) (u : St) : Prop where
  tidy : Tidy u
  lib : ∀ k t q, s.suspends e = some k → u.pc = .lib t → u.wq.hosting t = some q → k.queue = some q
  interrupts : ∀ t ∈ s.interrupts e, u.pc.runs ≠ some t ∧
    (u.wq.hosting t ≠ none → (u.ctx t).uc.target ≠ none)
  target : ∀ x, (s.suspends e).bind Call.queue = some (.ctx x) → (u.ctx x).f ≠ none
  unwaited : ∀ x, (u.ctx x).f = none → (e = .exit false ∧ s.pc = .user x) ∨ u.wq.queue (.ctx x) = []

section
variable {D : Diag} {a : Act} {e : Event} {s u v : St}

/-- A thread that goes to sleep in a wait queue is in a timed wait. -/
theorem timed_of_suspends {k : Call} {d : Nat} {q : Waitq} (hk : s.suspends e = some k)
    (hd : s.deadlineOf e = some d) (hq : k.queue = some q) : k.target ≠ none := by
  unfold deadlineOf at hd
  unfold suspends at hk
  split at hd <;> simp only [reduceCtorEq, Option.some.injEq] at hk hd
  all_goals first
    | (subst hk; simp_all [Call.queue, Call.target])
    | (split at hk <;> cases hk; simp [Call.target])

theorem TidyAt.ok_micro (h : TidyAt s e u) (hm : Micro D a u v) : v.wq.Ok := by
  refine waitqsOk_micro h.tidy.ok (fun t k x n q hpc ht hq => ?_) hm
  obtain ⟨y, m, hk, rfl, -⟩ := h.tidy.back t k q hpc hq
  cases ht.symm.trans hk
  rfl

/-- A thread that is switched to is in no queue, or back in a timed wait whose
target is alive. -/
theorem TidyAt.entered {t : Ptr} {poll : Bool} {q : Waitq} (h : TidyAt s e u) (hS : SleepInv u)
    (hcalm : Act.calm u (.enter t poll)) (ha : May s e (.enter t poll))
    (hm : Micro D (.enter t poll) u v) (hq : u.wq.hosting t = some q) :
    ∃ x n, (u.ctx t).uc.target = some (x, n) ∧ q = .ctx x ∧ ¬ v.gone x n := by
  have hpc : u.pc = .sched := by cases hm; assumption
  have hw := h.tidy.parked t q hq (by rw [hpc]; simp [Pc.runs])
  cases ht : (u.ctx t).uc.target with
  | none =>
    exfalso
    cases poll with
    | true =>
      have := hw.live.1
      simp [CoState.queueable, show (u.ctx t).state.polling from hcalm] at this
    | false =>
      refine hw.out ht (.inr ?_)
      cases hm with
      | enter _ hp =>
        obtain ⟨-, -, h3, -⟩ := hS.popped hp
        rw [h3]; exact List.mem_cons_self ..
  | some p =>
    obtain ⟨x, n⟩ := p
    have hqx : q = .ctx x := by
      have := hw.queue
      rw [Call.queue_of_target ht] at this
      exact (Option.some.inj this).symm
    subst hqx
    -- somebody waits for `x`, so it has a thread
    have hf : (u.ctx x).f ≠ none := by
      intro hf
      rcases h.unwaited x hf with ⟨rfl, -⟩ | hnil
      · cases poll
        · cases ha.1
        · obtain ⟨_, he, -⟩ := ha; cases he
      · have := (h.tidy.ok.mem t _).2 hq
        rw [hnil] at this
        cases this
    have hfv : (v.ctx x).f ≠ none := by
      rw [(life_micro hm (by simp) fun poll => by simp).1]; exact hf
    exact ⟨x, n, rfl, rfl, fun hg => hw.alive x n ht hf (gone_micro hm (by simp) hfv hg).2⟩

theorem TidyAt.user_micro {t : Ptr} (h : TidyAt s e u) (hm : Micro D a u v) (hv : v.pc = .user t) :
    v.wq.hosting t = none := by
  rw [Option.eq_none_iff_forall_ne_some]
  intro q hq
  rcases hosting_micro hm hq with hqu | rfl
  swap
  · cases hm with
    | append hpc => rw [show (u.appended q t).pc = .lib t from hpc] at hv; cases hv
  have same : u.pc = .user t → False := fun hu => by
    rw [h.tidy.user t hu] at hqu; cases hqu
  cases hm with
  | enterLib | yield | sleepYield | die | quit => cases hv
  | removeMe => cases hv; simp [takenOff, WaitQs.setHosting] at hq
  | complete _ _ hpc ht =>
    cases hv
    obtain ⟨x, n, hk, -, hg⟩ := h.tidy.back t _ q hpc hqu
    exact hg (ht x n hk)
  | wake => unfold woken at hv; split at hv <;> exact same hv
  | discard hpc hp => cases hp <;> exact same hv
  | @enter _ s1 _ c poll hpc hp hst hs =>
    have huc : (s1.ctx c).uc = (u.ctx c).uc := by
      cases hp <;> simp [popTmp, popRunq, clearExpire, setCtx]
    rcases enter_cases hs with ⟨hu, rfl⟩ | ⟨-, -, rfl⟩
    · cases hv
      have hw := h.tidy.parked t q hqu (by rw [hpc]; simp [Pc.runs])
      exact hw.live.2.2 (huc ▸ hu)
    · cases hv
  | sift hs =>
    obtain ⟨-, -, -, rfl⟩ := sift_cases hs
    exact same hv
  | _ => exact same hv

theorem TidyAt.back_micro {t : Ptr} {k : Call} {q : Waitq} (h : TidyAt s e u) (hI : Inv u)
    (hS : SleepInv u) (hcalm : a.calm u) (ha : May s e a) (hm : Micro D a u v)
    (hv : v.pc = .post t k) (hq : v.wq.hosting t = some q) :
    ∃ x n, k.target = some (x, n) ∧ q = .ctx x ∧ ¬ v.gone x n := by
  rcases hosting_micro hm hq with hqu | rfl
  swap
  · cases hm with
    | append hpc => rw [show (u.appended q t).pc = .lib t from hpc] at hv; cases hv
  rcases post_micro hm hv with hu | ⟨poll, rfl, rfl⟩
  · -- nothing happens to a live target while the thread is back in its call
    obtain ⟨x, n, hk, rfl, hg⟩ := h.tidy.back t k q hu hqu
    have hf : (u.ctx x).f ≠ none := hI.live x (not_or.1 hg).2
    have hc : a ≠ .create x := by intro heq; subst heq; exact ha
    refine ⟨x, n, hk, rfl, fun hg' => hg (gone_micro hm hc (fun hf' => ?_) hg').2⟩
    have := die_of_cleared hS hcalm hm hc hf hf'
    subst this
    cases hm with
    | die hpc => rw [hu] at hpc; cases hpc
  · exact h.entered hS hcalm ha hm hqu

theorem TidyAt.parked_micro {t : Ptr} {q : Waitq} (hc : Clean s e) (h : TidyAt s e u) (hI : Inv u)
    (hS : SleepInv u) (hcalm : a.calm u) (ha : May s e a) (hm : Micro D a u v)
    (hq : v.wq.hosting t = some q) (hr : v.pc.runs ≠ some t) : Waiting v t q := by
  have hcr : ∀ c, a ≠ .create c := by intro c heq; subst heq; exact ha
  have hgone : ∀ x n, (v.ctx x).f ≠ none → v.gone x n → (u.ctx x).f ≠ none ∧ u.gone x n :=
    fun x n hf hg => gone_micro hm (hcr x) hf hg
  rcases hosting_micro hm hq with hqu | rfl
  swap
  · cases hm with
    | append hpc => exact absurd (by rw [show (u.appended q t).pc = .lib t from hpc]; rfl) hr
  by_cases hx : a.subject = some t
  swap
  · have hsame := micro_sameFor hm hx
    have hw := h.tidy.parked t q hqu (fun hu => hr (hsame.runs.2 hu))
    refine hw.keep (by rw [hsame.ctx]) (.inl (by rw [hsame.ctx])) (fun _ hf => ?_) hgone
    exact ((filed_micro hS hcalm hm).came hf).resolve_right fun hf => hx (files_subject hf)
  have hfiled := (filed_micro (t := t) hS hcalm hm).came
  have waiting : u.pc.runs ≠ some t → Waiting u t q := h.tidy.parked t q hqu
  have hrun : ∀ c, u.me ≠ some c → u.pc.runs ≠ some c := fun c hne hu => hne (hI.me c hu)
  cases hm with
  | env | gcList | sift => cases hx
  | attr | rc =>
    cases hx
    exact (waiting hr).keep (by simp [setCtx]) (.inl (by simp [setCtx]))
      (fun _ hf => (hfiled hf).resolve_right (by simp [Act.files])) hgone
  | enterLib => cases hx; exact absurd rfl hr
  | expire hpc | append hpc =>
    cases hx
    exact absurd (show u.pc.runs = some t by rw [hpc]; rfl) hr
  | removeMe | complete => cases hx; exact absurd rfl hr
  | yield hpc hk ht b =>
    cases hx
    obtain ⟨-, hs, -⟩ := ha
    refine ⟨?_, .inl ?_, fun _ hf => ?_, fun x n hx => ?_⟩
    · simpa [St.parked, setCtx] using h.lib _ t q hs hpc hqu
    · simpa [St.parked, setCtx] using hk.state
    · have := hS.running t (by rw [hpc]; rfl)
      rcases (hfiled hf).resolve_right (by simp [Act.files]) with hm | hm
      · exact this.1 hm
      · exact this.2 hm
    · simp [St.parked, setCtx, ht] at hx
  | @sleepYield _ _ k dormant hpc hk ht d b =>
    cases hx
    obtain ⟨-, hs, hd, hdorm⟩ := ha
    have hkq := h.lib _ t q hs hpc hqu
    refine ⟨?_, .inl ?_, fun htn => ?_, fun x n hx hf hg => ?_⟩
    · simpa [St.parked, asleep, setCtx] using hkq
    · simpa [St.parked, asleep, setCtx] using hk.state
    · exact absurd (by simpa [St.parked, setCtx] using htn) (timed_of_suspends hs hd hkq)
    · obtain ⟨h1, h2⟩ := ht x n (by simpa [St.parked, setCtx] using hx)
      have hdf : dormant = false := by
        by_contra hdt
        obtain ⟨y, v, rfl, hy⟩ := hdorm (by simpa using hdt)
        exact hc.2.2 y rfl hy
      exact (hgone x n hf hg).2.elim (absurd h1) (h2 hdf)
  | resume hne hf hst =>
    cases hx
    have hw := waiting (hrun t hne)
    rcases hst with hst | hst | hst
    · have := hw.resumable; rw [hst] at this; cases this
    · exact absurd hst hw.live.2.1
    · exact absurd hst hw.live.2.2
  | resumeFast hpc hf hst =>
    cases hx
    have := (waiting (by rw [hpc]; simp [Pc.runs])).live.1
    rw [hst] at this
    cases this
  | interrupt hne hf =>
    cases hx
    have ht := (h.interrupts t ha).2 (by rw [hqu]; simp)
    exact (waiting (hrun t hne)).keep
      (by simp [queueNow, sleepqEnqueue, sleepqRemove, setCtx])
      (.inr ⟨by simp [queueNow, sleepqEnqueue, sleepqRemove, setCtx], ht⟩)
      (fun htn => absurd htn ht) hgone
  | @wake _ q' _ rest =>
    cases hx
    have : (u.woken q' t rest).wq.hosting t = none := by
      unfold woken
      split <;> simp [dequeue, WaitQs.setHosting, queueNow, sleepqEnqueue, sleepqRemove, setCtx]
    rw [this] at hq
    cases hq
  | createFree | createNew => exact absurd rfl (hcr _)
  | die hpc | quit hpc =>
    cases hx
    rw [h.tidy.user t hpc] at hqu
    cases hqu
  | discard hpc hp hst =>
    cases hx
    have := (waiting (by rw [hpc]; simp [Pc.runs])).resumable
    rw [hst] at this
    cases this
  | release hl hrl =>
    cases hx
    have := (waiting hrl).resumable
    exact absurd (hS.dead t (hl.imp id And.left)) (hI.live t (resumable_ne this).1)
  | unlink => cases hx; simp [WaitQs.setHosting] at hq
  | drop hrd hf =>
    cases hx
    exact absurd hf (hI.live t (resumable_ne (waiting hrd).resumable).1)
  | enter hpc hp hst hs => cases hx; exact absurd (enter_runs (.enter (D := D) hpc hp hst hs)) hr

theorem TidyAt.lib_micro {k : Call} {t : Ptr} {q : Waitq} (h : TidyAt s e u) (ha : May s e a)
    (hm : Micro D a u v) (hs : s.suspends e = some k) (hv : v.pc = .lib t)
    (hq : v.wq.hosting t = some q) : k.queue = some q := by
  rcases hosting_micro hm hq with hqu | rfl
  swap
  · replace ha : (s.suspends e).bind Call.queue = some q := ha
    rwa [hs] at ha
  have same : u.pc = .lib t → k.queue = some q := fun hu => h.lib k t q hs hu hqu
  cases hm with
  | enterLib hpc =>
    cases hv
    rcases hpc with hpc | ⟨k', hpc, hk'⟩
    · rw [h.tidy.user t hpc] at hqu; cases hqu
    · obtain ⟨x, n, hx, -⟩ := h.tidy.back t k' q hpc hqu
      rw [hk'] at hx
      cases hx
  | yield | sleepYield | removeMe | complete | die | quit => cases hv
  | wake => refine same ?_; unfold woken at hv; split at hv <;> exact hv
  | discard hpc hp => refine same ?_; cases hp <;> exact hv
  | enter hpc hp hst hs => rcases enter_cases hs with ⟨-, rfl⟩ | ⟨-, -, rfl⟩ <;> cases hv
  | sift hs =>
    obtain ⟨-, -, -, rfl⟩ := sift_cases hs
    exact same hv
  | _ => exact same hv

/-- The event switches to nobody. -/
theorem not_enter_of_interrupts {t x : Ptr} {poll : Bool} (ht : t ∈ s.interrupts e) :
    ¬ May s e (.enter x poll) := by
  intro ha
  cases poll with
  | false => obtain ⟨rfl, -⟩ := ha; cases ht
  | true => obtain ⟨_, rfl, -⟩ := ha; cases ht

theorem interrupts_ne_me {t : Ptr} (ht : t ∈ s.interrupts e) : s.me ≠ some t := by
  have key : ∀ {c}, t ∈ s.notMe c → s.me ≠ some t := by
    intro c hc
    unfold notMe at hc
    split at hc
    · cases hc
    · rename_i hne
      rw [List.mem_singleton.1 hc]; exact hne
  unfold interrupts at ht
  split at ht
  · exact key ht
  · split at ht
    · exact key ht
    · cases ht
  · split at ht
    · exact key ht
    · cases ht
  · split at ht
    · split at ht
      · cases ht
      · exact key ht
    · cases ht
  · cases ht

theorem TidyAt.interrupts_micro {t : Ptr} (h : TidyAt s e u) (ha : May s e a)
    (hm : Micro D a u v) (ht : t ∈ s.interrupts e) :
    v.pc.runs ≠ some t ∧ (v.wq.hosting t ≠ none → (v.ctx t).uc.target ≠ none) := by
  obtain ⟨h1, h2⟩ := h.interrupts t ht
  have hen : ∀ poll, a ≠ .enter t poll := by
    intro poll heq
    subst heq
    exact not_enter_of_interrupts ht ha
  refine ⟨fun hv => ?_, fun hq => ?_⟩
  · rcases runs_micro hm hv with hu | ⟨poll, he⟩
    · exact h1 hu
    · exact hen poll he
  · rw [uc_micro hm h1 (by intro heq; subst heq; exact ha) hen]
    obtain ⟨q, hq⟩ := Option.ne_none_iff_exists'.1 hq
    rcases hosting_micro hm hq with hqu | rfl
    · exact h2 (by rw [hqu]; simp)
    · cases hm with
      | append hpc => exact absurd (by rw [hpc]; rfl) h1

theorem TidyAt.target_micro {x : Ptr} (h : TidyAt s e u) (hS : SleepInv u) (hcalm : a.calm u)
    (ha : May s e a) (hm : Micro D a u v)
    (hx : (s.suspends e).bind Call.queue = some (.ctx x)) : (v.ctx x).f ≠ none := by
  intro hf
  have := die_of_cleared hS hcalm hm (by intro heq; subst heq; exact ha) (h.target x hx) hf
  subst this
  obtain ⟨rfl, -⟩ := ha
  cases hx

theorem TidyAt.unwaited_micro {x : Ptr} (h : TidyAt s e u) (hS : SleepInv u) (hcalm : a.calm u)
    (ha : May s e a) (hm : Micro D a u v) (hf : (v.ctx x).f = none) :
    (e = .exit false ∧ s.pc = .user x) ∨ v.wq.queue (.ctx x) = [] := by
  by_cases hfu : (u.ctx x).f = none
  · refine (h.unwaited x hfu).imp id fun hnil => ?_
    refine List.eq_nil_iff_forall_not_mem.2 fun t ht => ?_
    rcases queue_micro hm ht with ht | rfl
    · rw [hnil] at ht; cases ht
    · exact h.target x ha hfu
  · have := die_of_cleared hS hcalm hm (by intro heq; subst heq; exact ha) hfu hf
    subst this
    exact .inl ha

theorem tidy_micro (hc : Clean s e) (ha : May s e a) (hm : Micro D a u v) (hcalm : a.calm u)
    (hI : Inv u) (hS : SleepInv u) (h : TidyAt s e u) : TidyAt s e v where
  tidy :=
    { ok := h.ok_micro hm
      user := fun _ hv => h.user_micro hm hv
      back := fun _ _ _ hv hq => h.back_micro hI hS hcalm ha hm hv hq
      parked := fun _ _ hq hr => h.parked_micro hc hI hS hcalm ha hm hq hr }
  lib := fun _ _ _ hs hv hq => h.lib_micro ha hm hs hv hq
  interrupts := fun _ ht => h.interrupts_micro ha hm ht
  target := fun _ hx => h.target_micro hS hcalm ha hm hx
  unwaited := fun _ hf => h.unwaited_micro hS hcalm ha hm hf

/-- A thread goes to wait for a context that is started, by the event or
before. -/
theorem suspends_ctx {x : Ptr} (h : (s.suspends e).bind Call.queue = some (.ctx x)) :
    (s.ctx x).state ≠ .dormant ∨ s.creates e = some x ∨ e.peeks = some x := by
  obtain ⟨k, hk, hq⟩ := Option.bind_eq_some_iff.1 h
  cases e with
  | block op b =>
    cases op with
    | join c | setInterruptAndJoin c | setInterruptAndJoinWithTimeout c v =>
      simp only [suspends] at hk
      split at hk
      · rename_i hr
        cases hk
        cases hq
        exact .inl (resumable_ne hr).1
      · cases hk
    | signalErrorAndJoin g v =>
      obtain ⟨o, ho, rfl⟩ := Option.map_eq_some_iff.1 hk
      cases hq
      have := (List.mem_filter.1 (List.mem_of_mem_head? ho)).2
      left
      intro hd
      simp [hd] at this
    | waitFor v f => cases hk; cases hq; exact .inr (.inl rfl)
    | peek c v => cases hk; cases hq; exact .inr (.inr rfl)
    | _ => cases hk; cases hq
  | cont b =>
    obtain ⟨-, hl⟩ := Option.filter_eq_some_iff.1 hk
    cases k <;> simp_all [Call.loops, Call.queue]
  | _ => cases hk

theorem suspends_pc {k : Call} {t : Ptr} {s' : St} (hk : s.suspends e = some k)
    (hs : s.step D e = some s') : s.pc ≠ .lib t := by
  intro hpc
  cases e with
  | block op b => simp [step, hpc] at hs
  | cont b => simp [step, hpc] at hs
  | _ => cases hk

/-- A new thread is in a context that nobody waits for. -/
theorem tidy_create {c : Ptr} (hI : Inv s) (hS : SleepInv s) (h : Tidy s) (hU : Unwaited s)
    (hm : Micro D (.create c) s u) :
    Tidy u ∧ ∀ x, (u.ctx x).f = none → u.wq.queue (.ctx x) = [] := by
  obtain ⟨hf, hd⟩ := hS.created hI hm
  have hctx : ∀ t, t ≠ c → u.ctx t = s.ctx t := fun t ht =>
    (micro_sameFor hm (by simpa [Act.subject] using ht.symm)).ctx
  obtain ⟨hw, hp, hfl⟩ : u.wq = s.wq ∧ u.pc = s.pc ∧ ∀ t, u.filed t ↔ s.filed t := by
    cases hm <;> exact ⟨rfl, rfl, fun t => Iff.rfl⟩
  have hgone : ∀ x n, x ≠ c → (u.gone x n ↔ s.gone x n) := fun x n hx => by
    rw [gone, gone, hctx x hx]
  refine ⟨⟨hw ▸ h.ok, fun t ht => ?_, fun t k q ht hq => ?_, fun t q hq hr => ?_⟩, fun x hx => ?_⟩
  · rw [hw]; exact h.user t (hp ▸ ht)
  · obtain ⟨x, n, h1, h2, h3⟩ := h.back t k q (hp ▸ ht) (hw ▸ hq)
    have hxc : x ≠ c := by intro heq; subst heq; exact h3 (.inr hd)
    exact ⟨x, n, h1, h2, fun hg => h3 ((hgone x n hxc).1 hg)⟩
  · rw [hw] at hq
    have hwt := h.parked t q hq (hp ▸ hr)
    have htc : t ≠ c := by
      intro heq
      subst heq
      have := hwt.resumable
      rw [hd] at this
      cases this
    have hu : u.ctx t = s.ctx t := hctx t htc
    refine ⟨hu ▸ hwt.queue, hu ▸ hwt.state, fun ht hft => hwt.out (hu ▸ ht) ((hfl t).1 hft), ?_⟩
    intro x n ht hfx hg
    rw [hu] at ht
    have hxc : x ≠ c := by
      intro heq
      subst heq
      have hqx := hwt.queue
      rw [Call.queue_of_target ht] at hqx
      cases hqx
      have := (h.ok.mem t _).2 hq
      rw [hU x hf] at this
      cases this
    exact hwt.alive x n ht (hctx x hxc ▸ hfx) ((hgone x n hxc).1 hg)
  · by_cases hxc : x = c
    · subst hxc
      exact absurd hx (create_frame hm).2.2.1
    · rw [hw]; exact hU x (hctx x hxc ▸ hx)

theorem tidy_begin {s1 s' : St} (hI : Inv s) (hS : SleepInv s) (h : Tidy s) (hU : Unwaited s)
    (hc : Clean s e) (hs : s.step D e = some s') (hb : Begin D s e s1) : TidyAt s e s1 := by
  have hpeek : ∀ x, e.peeks = some x → (s.ctx x).f ≠ none := fun x hx =>
    hI.live x (hc.2.2 x hx)
  cases hb with
  | same hcr =>
    refine ⟨h, fun k t q hk ht _ => absurd ht (suspends_pc hk hs), fun t ht => ?_, fun x hx => ?_,
      fun x hf => .inr (hU x hf)⟩
    · refine ⟨fun hr => ?_, hc.2.1 t ht⟩
      -- nobody interrupts himself
      exact interrupts_ne_me ht (hI.me t hr)
    · rcases suspends_ctx hx with hx | hx | hx
      · exact hI.live x hx
      · rw [hcr] at hx; cases hx
      · exact hpeek x hx
  | @create c _ hcr hm =>
    obtain ⟨h1, h2⟩ := tidy_create hI hS h hU hm
    have hpc : s1.pc = s.pc := (create_frame hm).1
    refine ⟨h1, fun k t q hk ht _ => absurd (hpc ▸ ht) (suspends_pc hk hs), fun t ht => ?_,
      fun x hx => ?_, fun x hf => .inr (h2 x hf)⟩
    · unfold creates at hcr
      split at hcr
      all_goals first | cases hcr; done | cases ht
    · by_cases hxc : x = c
      · subst hxc; exact (create_frame hm).2.2.1
      rw [(micro_sameFor hm (by simpa [Act.subject] using Ne.symm hxc)).ctx]
      rcases suspends_ctx hx with hx | hx | hx
      · exact hI.live x hx
      · rw [hcr] at hx; exact absurd (Option.some.inj hx).symm hxc
      · exact hpeek x hx

/-- Every event that meets the condition keeps `Tidy`. -/
theorem tidy_step {s' : St} (hI : Inv s) (hS : SleepInv s) (h : Tidy s) (hU : Unwaited s)
    (hc : Clean s e) (hs : s.step D e = some s') : SleepInv s' ∧ Tidy s' ∧ Unwaited s' := by
  obtain ⟨h1, h2⟩ := calm_chain (I := TidyAt s e) hI hS hc.1 hs
    (fun s1 hb => tidy_begin hI hS h hU hc hs hb)
    fun a u v ha hm hcalm hIu hSu hu => tidy_micro hc ha hm hcalm hIu hSu hu
  refine ⟨h1, h2.tidy, fun x hf => ?_⟩
  rcases h2.unwaited x hf with ⟨rfl, hpc⟩ | hnil
  · -- the thread that exits has woken its joiners
    have hp : ∀ t ∈ s.wq.queue (.ctx x), t ∉ s.pending := fun t ht =>
      hc.1.1 t (List.mem_append_right _ (List.mem_map.2 ⟨(.ctx x, t), by
        simpa [wakes, hpc, Pc.runs] using wakesAll_mem ht, rfl⟩))
    simp only [step, hpc] at hs
    split at hs
    · exact (exit_spec hs (hI.resumed x (.inl hpc)) hS.queue hp).2.2.1
    · cases hs
  · exact hnil

end

end Mnthr

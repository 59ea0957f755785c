import Mnthr.L3Micro.Frame
import Mnthr.L4Inv.Threads

/-!
# Timed subscriptions

A thread that comes back from `mnthr_signal_subscribe_with_timeout` tells a
signal from a timeout by its `expire_ticks`: `MNTHR_SLEEP_UNDEFINED` is read
as a signal. The sift stores that value in every context that it resumes, so
an expired subscriber returns its `co.rc` too. `subscribe_reports`: the call
reports its timeouts exactly when the sift finds none to report.

`Cause` is a history variable: what happened to a subscriber since it
subscribed.
-/
namespace Mnthr
open St

/-- Why a thread in a timed subscription is resumed. -/
inductive Cause where
  /-- nothing was delivered to it yet -/
  | waiting (deadline : Nat)
  /-- resumed by the sift after its deadline, with nothing delivered -/
  | expired
  /-- a signal or an interrupt was delivered to it -/
  | delivered
  | other
  deriving DecidableEq, Repr

def Cause.isWaiting : Cause → Bool
  | .waiting _ => true
  | _ => false

/-- `poller_sift_sleepq` resumes the thread; `now` is its clock. -/
def Cause.resumed (now : Nat) : Cause → Cause
  | .waiting d => if d < now then .expired else .other
  | .delivered => .delivered
  | _ => .other

/-- The thread is set for resume by something else: a wait queue in which it
was left behind. -/
def Cause.disturbed : Cause → Cause
  | .waiting _ => .other
  | c => c

namespace St

/-- The deadline, if the event is `t`'s call of
`mnthr_signal_subscribe_with_timeout`. -/
def subscribes (s : St) (t : Ptr) : Event → Option Nat
  | .block (.signalSubscribeWithTimeout _ v) _ =>
    if s.pc.runs = some t then some (deadline s.now .msec v) else none
  | _ => none

/-- Threads to which the event delivers a signal, an error or an interrupt. -/
def delivers (s : St) : Event → List Ptr
  | .call (.signalSend g) | .call (.signalError g _) | .block (.signalErrorAndJoin g _) _ =>
    s.subscriber g
  | e => s.interrupts e

/-- The thread that the sift resumes. -/
def siftResumes (s : St) : Event → Option Ptr
  | .next => s.nextPick.filter fun t => (s.ctx t).state.resumable
  | _ => none

def causeAfter (s : St) (e : Event) (_ : St) (h : Ptr → Cause) (t : Ptr) : Cause :=
  match s.subscribes t e with
  | some d => .waiting d
  | none =>
    if t ∈ s.delivers e then .delivered
    else if s.polled e = some t then .other
    else if s.siftResumes e = some t then (h t).resumed s.siftNow
    else if t ∈ s.touched e then (h t).disturbed
    else h t

end St

/-- The machine with the cause of every thread's resume beside it. -/
def causes (D : Diag) : St × (Ptr → Cause) → Event → Option (St × (Ptr → Cause)) :=
  recorded (St.step D) St.causeAfter

/-- A timed subscription that is about to return reports what resumed it. -/
def Reports (D : Diag) (p : St × (Ptr → Cause)) : Prop :=
  ∀ t g, p.1.pc = .post t (.subscribeTimeout g) → ∀ b, ∃ s' v,
    p.1.step D (.cont b) = some s' ∧ s'.ret = some ⟨some t, some (.subscribeTimeout g), v⟩ ∧
    (p.2 t = .expired → v = D.WAIT_TIMEOUT) ∧ (p.2 t = .delivered → v = (p.1.ctx t).rc)

/-- The sift resumes no timed subscriber that has nothing but its deadline to
be resumed for, unless `co.rc` is the code of a timeout already. -/
def InTime (D : Diag) (p : St × (Ptr → Cause)) (e : Event) : Prop :=
  ∀ t g d, p.1.siftResumes e = some t → (p.1.ctx t).uc = .subscribeTimeout g →
    p.2 t = .waiting d → p.1.siftNow ≤ d ∨ (p.1.ctx t).rc = D.WAIT_TIMEOUT

section
variable {D : Diag} {s s' : St} {e : Event} {t : Ptr} {k : Call}

/-- A thread that is back in a call was, or has just been resumed. -/
theorem post_step (hB : Base s) (hs : s.step D e = some s') (h : s'.pc = .post t k) :
    s.pc = .post t k ∨ (e = .next ∧ s.nextPick = some t) ∨ s.polled e = some t := by
  obtain ⟨s1, hb, hch⟩ := step_micro hB hs
  have h1 : s1.pc = s.pc := by
    cases hb with
    | same => rfl
    | create hc hm => cases hm <;> rfl
  refine hch.inv (I := fun u => u.pc = .post t k → s.pc = .post t k ∨
    (e = .next ∧ s.nextPick = some t) ∨ s.polled e = some t) ?_ (fun hp => .inl (h1 ▸ hp)) h
  intro a u v ha hm hu hv
  rcases post_micro hm hv with hp | ⟨poll, rfl, -⟩
  · exact hu hp
  · cases poll with
    | false => exact .inr (.inl ha)
    | true =>
      obtain ⟨rc, rfl, hf⟩ := ha
      exact .inr (.inr (by simp [polled, hf]))

theorem siftResumes_cases (h : s.siftResumes e = some t) :
    e = .next ∧ s.nextPick = some t ∧ (s.ctx t).state.resumable := by
  cases e with
  | next => exact ⟨rfl, Option.filter_eq_some_iff.1 h⟩
  | _ => cases h

/-- The way out of the call. -/
theorem subscribeTimeout_returns {g : Nat} (hI : Inv s) (hpc : s.pc = .post t (.subscribeTimeout g))
    (hmem : t ∈ s.ctxes) (b : Bool) : ∃ s', s.step D (.cont b) = some s' ∧ s'.pc = .user t ∧
      s'.ret = some ⟨some t, some (.subscribeTimeout g),
        if (s.ctx t).expireTicks = SLEEP_UNDEFINED then (s.ctx t).rc else D.WAIT_TIMEOUT⟩ := by
  have hme : s.me = some t := hI.me t (by rw [hpc]; rfl)
  simp [step, cont, complete, hpc, hmem, hme, Pc.call]

/-- What a thread finds when the sift has resumed it. -/
theorem next_finds (hs : s.step D .next = some s') (h : s'.pc = .post t k)
    (hn : s.nextPick = some t) : s.siftResumes .next = some t ∧ (s.ctx t).uc = k ∧
      t ∈ s'.ctxes ∧ (s'.ctx t).expireTicks = SLEEP_UNDEFINED ∧ (s'.ctx t).rc = (s.ctx t).rc := by
  obtain ⟨c, u, hpc, hc, hp, hcase⟩ := next_cases hs
  cases hn.symm.trans hc
  have hu : u.ctx t = { s.ctx t with expireTicks := SLEEP_UNDEFINED } := by
    rw [hp.ctx_eq, Function.update_self]
  obtain ⟨hup, hmem⟩ : u.pc = s.pc ∧ t ∈ u.ctxes := by
    cases hp with
    | tmp hm | runq hm => exact ⟨rfl, hm⟩
  rcases hcase with ⟨hr, hen⟩ | ⟨-, hf⟩
  · rcases enter_cases hen with ⟨-, rfl⟩ | ⟨-, -, rfl⟩
    · cases h
    · cases h
      exact ⟨by simp [siftResumes, hn, hr], by rw [hu], hmem, by simp [setCtx, hu],
        by simp [setCtx, hu]⟩
  · rw [pushFree_pc hf, hup, hpc] at h
    cases h

/-- A thread that a poller resumes is allocated. -/
theorem polled_mem (hs : s.step D e = some s') (hp : s.polled e = some t)
    (h : s'.pc = .post t k) : t ∈ s'.ctxes := by
  cases e with
  | pollResume c rc =>
    have hct : c = t := by
      simp only [polled] at hp
      split at hp
      · cases hp
      · exact Option.some.inj hp
    subst hct
    have entered : ∀ u : St, u.pc = .sched → c ∈ u.ctxes → u.pollerResume c = some s' →
        c ∈ s'.ctxes := by
      intro u hpc hm hr
      unfold pollerResume at hr
      split at hr
      · rcases enter_cases hr with ⟨-, rfl⟩ | ⟨-, -, rfl⟩ <;> exact hm
      · rw [pushFree_pc hr, hpc] at h
        cases h
    simp only [step, St.pollResume] at hs
    split at hs
    · rename_i hg
      split at hs
      · cases hs; exact hg.2
      · cases rc with
        | none => exact entered s hg.1 hg.2 hs
        | some v => exact entered (s.setCtx c { s.ctx c with rc := v }) hg.1 hg.2 hs
    · cases hs
  | _ => cases hp

/-- Inside a call nothing but the clock moves. -/
theorem post_tick (hs : s.step D e = some s') (hpc : s.pc = .post t k) (hc : ∀ b, e ≠ .cont b) :
    ∃ v, e = .tick v ∧ s' = { s with now := v } := by
  cases e with
  | call op => simp [step, mayCall, hpc] at hs
  | block op b | exit b => simp [step, hpc] at hs
  | cont b => exact absurd rfl (hc b)
  | sift => simp [step, St.sift, hpc] at hs
  | next => simp [step, St.next, hpc] at hs
  | tick v =>
    simp only [step] at hs
    split at hs
    · cases hs; exact ⟨v, rfl, rfl⟩
    · cases hs
  | pollResume c rc => simp [step, St.pollResume, hpc] at hs
  | pollFast c => simp [step, St.pollFast, hpc] at hs

end

section
variable {D : Diag} {p p' : St × (Ptr → Cause)} {e : Event}

theorem cause_tick {s : St} {h : Ptr → Cause} (v : Nat) (t : Ptr) (s' : St) :
    s.causeAfter (.tick v) s' h t = h t := by
  simp [causeAfter, subscribes, delivers, interrupts, polled, siftResumes, touched, starts, wakes]

theorem cause_next {s : St} {h : Ptr → Cause} {t : Ptr} (hn : s.siftResumes .next = some t)
    (s' : St) : s.causeAfter .next s' h t = (h t).resumed s.siftNow := by
  simp [causeAfter, subscribes, delivers, interrupts, polled, hn]

theorem cause_polled {s : St} {h : Ptr → Cause} {t : Ptr} (hp : s.polled e = some t) (s' : St) :
    s.causeAfter e s' h t = .other := by
  cases e with
  | pollResume c rc => simp [causeAfter, subscribes, delivers, interrupts, hp]
  | _ => cases hp

/-- A thread that is back in its timed subscription is allocated, and has its
`expire_ticks` cleared unless a poller resumed it. -/
structure Cleared (p : St × (Ptr → Cause)) : Prop where
  inv : Inv p.1
  post : ∀ t g, p.1.pc = .post t (.subscribeTimeout g) → t ∈ p.1.ctxes ∧
    (p.2 t = .other ∨ (p.1.ctx t).expireTicks = SLEEP_UNDEFINED)

/-- How a thread gets back in its timed subscription. -/
theorem back_cases (h : Cleared p) (hs : causes D p e = some p') {t : Ptr} {g : Nat}
    (hpc : p'.1.pc = .post t (.subscribeTimeout g)) :
    (p.1.pc = .post t (.subscribeTimeout g) ∧ p'.1.ctx = p.1.ctx ∧ p'.1.ctxes = p.1.ctxes ∧
      p'.2 t = p.2 t) ∨
    (e = .next ∧ p.1.nextPick = some t ∧ p'.2 t = (p.2 t).resumed p.1.siftNow) ∨
    (p.1.polled e = some t ∧ p'.2 t = .other) := by
  obtain ⟨h1, h2⟩ := recorded_step hs
  rcases post_step h.inv.base h1 hpc with hp | ⟨rfl, hn⟩ | hp
  · left
    by_cases hc : ∃ b, e = .cont b
    · obtain ⟨b, rfl⟩ := hc
      obtain ⟨u, hu, hup, -⟩ := subscribeTimeout_returns (D := D) h.inv hp (h.post t g hp).1 b
      cases h1.symm.trans hu
      rw [hup] at hpc
      cases hpc
    · obtain ⟨v, rfl, hv⟩ := post_tick h1 hp (fun b hb => hc ⟨b, hb⟩)
      rw [h2, hv]
      exact ⟨hp, rfl, rfl, cause_tick v t _⟩
  · right; left
    rw [h2]
    exact ⟨rfl, hn, cause_next (next_finds h1 hpc hn).1 _⟩
  · right; right
    rw [h2]
    exact ⟨hp, cause_polled hp _⟩

theorem cleared_step (h : Cleared p) (hs : causes D p e = some p') : Cleared p' := by
  have h1 := (recorded_step hs).1
  refine ⟨inv_step h.inv h1, fun t g hpc => ?_⟩
  rcases back_cases h hs hpc with ⟨hp, hctx, hmem, hc⟩ | ⟨rfl, hn, -⟩ | ⟨hp, hc⟩
  · rw [hctx, hmem, hc]
    exact h.post t g hp
  · have hf := next_finds h1 hpc hn
    exact ⟨hf.2.2.1, .inr hf.2.2.2.1⟩
  · exact ⟨polled_mem h1 hp hpc, .inl hc⟩

/-- The call returns `co.rc`, except to a thread that a poller resumed. -/
theorem reports_iff (h : Cleared p) : Reports D p ↔ ∀ t g,
    p.1.pc = .post t (.subscribeTimeout g) → p.2 t = .expired → (p.1.ctx t).rc = D.WAIT_TIMEOUT := by
  constructor
  · intro hr t g hpc hx
    obtain ⟨hmem, hcl⟩ := h.post t g hpc
    obtain ⟨s1, v, hs1, hret, hto, -⟩ := hr t g hpc false
    obtain ⟨s2, hs2, -, hret2⟩ := subscribeTimeout_returns (D := D) h.inv hpc hmem false
    cases hs1.symm.trans hs2
    rw [hret2, if_pos (hcl.resolve_left (by rw [hx]; simp))] at hret
    have hv : (p.1.ctx t).rc = v := congrArg Ret.val (Option.some.inj hret)
    rw [hv]
    exact hto hx
  · intro hr t g hpc b
    obtain ⟨hmem, hcl⟩ := h.post t g hpc
    obtain ⟨s', hs, -, hret⟩ := subscribeTimeout_returns (D := D) h.inv hpc hmem b
    refine ⟨s', _, hs, hret, fun hx => ?_, fun hx => ?_⟩
    · rw [hr t g hpc hx, ite_self]
    · rw [if_pos (hcl.resolve_left (by rw [hx]; simp))]

theorem reports_step (h : Cleared p) (hr : Reports D p) (hs : causes D p e = some p') :
    Reports D p' ↔ InTime D p e := by
  have h1 := (recorded_step hs).1
  rw [reports_iff (cleared_step h hs)]
  constructor
  · intro hr' t g d hn hu hw
    obtain ⟨rfl, hpick, hres⟩ := siftResumes_cases hn
    by_cases hd : p.1.siftNow ≤ d
    · exact .inl hd
    right
    have hpc : p'.1.pc = .post t (.subscribeTimeout g) :=
      hu ▸ next_post h1 hpick hres (by simp [hu])
    have hx : p'.2 t = .expired := by
      rw [(recorded_step hs).2, cause_next hn, hw]
      exact if_pos (by omega)
    rw [← (next_finds h1 hpc hpick).2.2.2.2]
    exact hr' t g hpc hx
  · intro hin t g hpc hx
    rcases back_cases h hs hpc with ⟨hp, hctx, -, hc⟩ | ⟨rfl, hn, hc⟩ | ⟨hp, hc⟩
    · rw [hctx]
      exact (reports_iff h).1 hr t g hp (hc ▸ hx)
    · obtain ⟨hn, hu, -, -, hrc⟩ := next_finds h1 hpc hn
      rw [hrc]
      cases hw : p.2 t with
      | waiting d =>
        rw [hc, hw, Cause.resumed] at hx
        split at hx
        · exact (hin t g d hn hu hw).resolve_left (by omega)
        · cases hx
      | expired | delivered | other =>
        rw [hc, hw] at hx
        cases hx
    · rw [hc] at hx
      cases hx

end

theorem subscribe_reports {D : Diag} {objs : Objs} {now : Nat} {es : List Event}
    {p : St × (Ptr → Cause)}
    (hr : exec (causes D) (St.init objs now, fun _ => .other) es = some p) :
    (∀ pre post u, es = pre ++ post →
      exec (causes D) (St.init objs now, fun _ => .other) pre = some u → Reports D u) ↔
    Along (causes D) (InTime D) (St.init objs now, fun _ => .other) es := by
  have hinit : Cleared (St.init objs now, fun _ => .other) :=
    ⟨inv_init objs now, fun t g h => by cases h⟩
  exact exec_inv_iff (J := Cleared) (B := fun _ _ => True) (fun _ _ _ h hs => cleared_step h hs)
    (fun _ _ _ h _ hR hs => reports_step h hR hs) hinit ((reports_iff hinit).2 fun t g h => by cases h)
    (along_of_forall (C := fun _ => True) fun _ _ => trivial) hr

/-- Thread 0 subscribes to signal 0 for five milliseconds; `between` is what
happens before it is resumed. -/
def timedSubscription (between : List Event) : List Event :=
  [.call (.spawn 0), .call (.spawn 0), .tick 10, .sift, .next,
    .block (.signalSubscribeWithTimeout 0 5) false, .next] ++ between ++ [.sift, .next]

/-- Thread 1 sends the signal. -/
theorem subscribe_reports_signal : ∃ p,
    exec (causes .sample) (St.init .sample 0, fun _ => .other)
      (timedSubscription [.call (.signalSend 0), .exit false]) = some p ∧
    p.1.pc = .post 0 (.subscribeTimeout 0) ∧ p.2 0 = .delivered ∧ Reports .sample p := by
  obtain ⟨p, hp⟩ := Option.isSome_iff_exists.1
    (show (exec (causes .sample) (St.init .sample 0, fun _ => .other)
      (timedSubscription [.call (.signalSend 0), .exit false])).isSome by decide)
  refine ⟨p, hp, fact_of_map hp (f := fun p => p.1.pc) (by decide),
    fact_of_map hp (f := fun p => p.2 0) (by decide), ?_⟩
  refine (subscribe_reports hp).2 ?_ _ [] p (by simp) hp
  refine along_of_check (I := fun _ => True)
    (p := fun p e => (p.1.siftResumes e).all fun t => !(p.2 t).isWaiting)
    (fun _ _ _ _ _ => trivial) ?_ trivial (by decide)
  intro p e _ hc t g d hn _ hw
  rw [hn, Option.all_some, hw] at hc
  cases hc

/-- Nobody sends it: the deadline passes, and the call returns 0. -/
theorem subscribe_silentTimeout : ∃ p s',
    exec (causes .sample) (St.init .sample 0, fun _ => .other)
      (timedSubscription [.exit false, .tick 6000000]) = some p ∧
    p.1.pc = .post 0 (.subscribeTimeout 0) ∧ p.2 0 = .expired ∧
    p.1.step .sample (.cont false) = some s' ∧
    s'.ret = some ⟨some 0, some (.subscribeTimeout 0), 0⟩ ∧ ¬ Reports .sample p := by
  obtain ⟨p, hp⟩ := Option.isSome_iff_exists.1
    (show (exec (causes .sample) (St.init .sample 0, fun _ => .other)
      (timedSubscription [.exit false, .tick 6000000])).isSome by decide)
  have hpc := fact_of_map hp (f := fun p => p.1.pc) (a := .post 0 (.subscribeTimeout 0)) (by decide)
  have hx := fact_of_map hp (f := fun p => p.2 0) (a := .expired) (by decide)
  have hret := fact_of_map hp (f := fun p => (p.1.step .sample (.cont false)).map St.ret)
    (a := some (some ⟨some 0, some (.subscribeTimeout 0), 0⟩)) (by decide)
  obtain ⟨s', hs, hret⟩ := Option.map_eq_some_iff.1 hret
  refine ⟨p, s', hp, hpc, hx, hs, hret, fun h => ?_⟩
  obtain ⟨s1, v, hs1, hv, hto, -⟩ := h 0 0 hpc false
  cases hs.symm.trans hs1
  cases hret.symm.trans hv
  have := hto hx
  revert this
  decide

end Mnthr

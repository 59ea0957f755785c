import Mnthr.L4Inv.Exit
import Mnthr.L4Inv.Idents
import Mnthr.L4Inv.Standing
import Mnthr.L6Loop.Machine

/-!
# Threads in a wait for a descriptor

What the scheduler does with a thread whose wait a poller is to end. It stays
suspended in its wait until it is switched to, in the state of the wait unless
it is set for resume or interrupt (`Polls`, `polls_step`). `still_step`: an event
that is not the poller's, and no switch, begins and ends no wait, and a waiting
thread is left alone by it or interrupted. `lives_step` says who has a thread
after an event.
-/
namespace Mnthr
open St

/-- The call is a wait for a descriptor. -/
def Call.polls : Call → Bool
  | .poll _ => true
  | _ => false

/-- `t` is in a wait for a descriptor, suspended or switched back to. -/
def St.inPoll (s : St) (t : Ptr) (st : CoState) : Prop :=
  (s.ctx t).uc = .poll st ∨ s.pc = .post t (.poll st)

def Polls (s : St) : Prop :=
  ∀ t st, (s.ctx t).uc = .poll st → st.polling ∧ ((s.ctx t).state = st ∨ (s.ctx t).state.ready)

/-- The event takes no thread that waits for a descriptor off a wait queue. -/
def Unhurried (s : St) (e : Event) : Prop := ∀ x ∈ s.wakes e, (s.ctx x.2).uc.polls = false

instance (s : St) (e : Event) : Decidable (Unhurried s e) := by unfold Unhurried; infer_instance

/-- The event begins no wait for a descriptor, and switches to no thread. -/
def Event.still : Event → Bool
  | .block .pollRead _ | .block .pollWrite _ | .block .pollOther _ => false
  | .next | .pollResume .. | .pollFast _ => false
  | _ => true

/-- Only a wait for a descriptor suspends its thread in one. -/
def Act.pollsOnly : Act → Prop
  | .yield _ k _ => ∀ st, k = .poll st → st.polling
  | .sleepYield _ _ k _ _ => k.polls = false
  | _ => True

theorem ready_unpolled {st : CoState} (h : st.ready) : st.polling = false := by
  cases st <;> simp_all [CoState.ready, CoState.polling]

theorem polls_init (objs : Objs) (now : Nat) : Polls (St.init objs now) := by
  intro t st h
  cases h

section
variable {D : Diag} {a : Act} {e : Event} {s s' u v : St} {t x : Ptr} {st : CoState}

/-! ## What a call suspends its thread in -/

theorem suspends_polls {k : Call} (hk : s.suspends e = some k) (hp : k.polls) :
    e.still = false ∧ k.coState.polling ∧ s.deadlineOf e = none := by
  unfold suspends at hk
  split at hk
  all_goals first
    | (cases hk; first | (exact ⟨rfl, rfl, rfl⟩) | cases hp)
    | (split at hk <;> cases hk; cases hp)
    | (obtain ⟨o, -, rfl⟩ := Option.map_eq_some_iff.1 hk; cases hp)
    | skip
  · obtain ⟨-, hl⟩ := Option.filter_eq_some_iff.1 hk
    cases k <;> first | (cases hl; done) | cases hp
  · cases hk

theorem pollsOnly_of_may (ha : May s e a) : a.pollsOnly := by
  cases a with
  | yield c k b =>
    rintro st rfl
    exact (suspends_polls ha.2.1 rfl).2.1
  | sleepYield c d k b dormant =>
    cases hp : k.polls with
    | false => exact hp
    | true =>
      obtain ⟨-, hk, hd, -⟩ := ha
      rw [(suspends_polls hk hp).2.2] at hd
      cases hd
  | _ => trivial

/-! ## Suspended threads -/

theorem Polls.state (h : Polls s) (hu : (s.ctx t).uc = .poll st) :
    (s.ctx t).state.resumable := by
  obtain ⟨hst, h1 | h1⟩ := h t st hu
  · rw [h1]; exact polling_resumable hst
  · cases hs : (s.ctx t).state <;> simp_all [CoState.ready, CoState.resumable]

theorem Polls.alive (h : Polls s) (hI : Inv s) (hu : (s.ctx t).uc = .poll st) :
    (s.ctx t).f ≠ none ∧ s.pc.runs ≠ some t := by
  refine ⟨hI.live t (resumable_ne (h.state hu)).1, fun hr => ?_⟩
  rcases hI.ucRun t hr with h0 | h0 <;> rw [h0] at hu <;> cases hu

/-- What is suspended in a wait stays what it is until it is switched to. -/
theorem polls_keeps (hI : Inv s) (hS : SleepInv s) (hP : Polls s) (hc : a.calm s)
    (hm : Micro D a s s') (hu : (s.ctx t).uc = .poll st) (hne : ∀ poll, a ≠ .enter t poll) :
    (s'.ctx t).uc = .poll st ∧ ((s'.ctx t).state = (s.ctx t).state ∨
      a.files = some t ∧ s.pc.runs ≠ some t ∧ (s'.ctx t).state.ready) := by
  obtain ⟨hf, hr⟩ := hP.alive hI hu
  have hcr : a ≠ .create t := by
    rintro rfl
    exact hf (hS.created hI hm).1
  refine ⟨(uc_micro hm hr hcr hne).trans hu, ?_⟩
  rcases state_micro (t := t) hm with ⟨h1, -⟩ | ⟨st', rfl, -⟩ | ⟨h1, -, h2, -⟩ | ⟨poll, rfl, -⟩ | h1
  · exact .inl h1
  · cases hm with
    | enterLib hpc =>
      refine absurd ?_ hr
      rcases hpc with hpc | ⟨k, hpc, -⟩ <;> rw [hpc] <;> rfl
  · exact .inr ⟨h1, hr, h2⟩
  · exact absurd rfl (hne poll)
  · -- nobody clears it
    have hd := (life_micro hm hcr fun poll => ⟨?_, ?_, ?_⟩).2.2 h1
    · exact absurd hd (resumable_ne (hP.state hu)).1
    · rintro rfl
      cases hm with
      | die hpc => exact hr (by rw [hpc]; rfl)
    · rintro rfl
      cases hm with
      | discard hpc hp hst => exact hS.not_discard hc hp hst
    · rintro rfl
      cases hm with
      | release hl => exact hf (hS.dead t (hl.imp id And.left))

theorem polls_micro (hI : Inv s) (hS : SleepInv s) (hc : a.calm s) (ha : a.pollsOnly)
    (hm : Micro D a s s') (h : Polls s) : Polls s' := by
  intro t st hu
  rcases uc_cases (t := t) hm with heq | ⟨k, b, rfl, hk⟩ | ⟨d, k, b, dormant, rfl, hk⟩ | ⟨-, hk⟩ |
    ⟨poll, -, hk⟩
  · rw [heq] at hu
    obtain ⟨hst, h1⟩ := h t st hu
    have hne : ∀ poll, a ≠ .enter t poll := by
      rintro poll rfl
      rcases (inv_micro hI hm).ucRun t (enter_runs hm) with h0 | h0 <;>
        rw [heq, hu] at h0 <;> cases h0
    rcases (polls_keeps hI hS h hc hm hu hne).2 with h2 | ⟨-, -, h2⟩
    · exact ⟨hst, by rw [h2]; exact h1⟩
    · exact ⟨hst, .inr h2⟩
  · rw [hk] at hu
    subst hu
    cases hm with
    | yield hpc hsus =>
      exact ⟨ha st rfl, .inl (by simpa [parked, setCtx, Call.coState] using hsus.state)⟩
  · rw [hk] at hu
    subst hu
    cases ha
  · rw [hk] at hu; cases hu
  · rw [hk] at hu; cases hu

theorem polls_step (hI : Inv s) (hS : SleepInv s) (hc : Calm s e) (hs : s.step D e = some s')
    (h : Polls s) : Polls s' := by
  refine (calm_chain hI hS hc hs (fun s1 hb => ?_) fun a u v ha hm hcalm hIu hSu hu =>
    polls_micro hIu hSu hcalm (pollsOnly_of_may ha) hm hu).2
  cases hb with
  | same => exact h
  | create hcr hm => exact polls_micro (a := .create _) hI hS trivial trivial hm h

/-! ## Events that are not the poller's -/

/-- What a still event leaves of the waits. -/
structure Stays (s : St) (e : Event) (u : St) : Prop where
  polls : Polls u
  uc : ∀ t st, (u.ctx t).uc = .poll st ↔ (s.ctx t).uc = .poll st
  state : ∀ t st, (s.ctx t).uc = .poll st → (u.ctx t).state = (s.ctx t).state ∨
    t ∈ s.interrupts e ∧ (u.ctx t).state = .setInterrupt
  post : ∀ t st, u.pc = .post t (.poll st) → s.pc = .post t (.poll st)

theorem still_enter {poll : Bool} (he : e.still) : ¬ May s e (.enter t poll) := by
  intro ha
  cases poll with
  | false => rw [ha.1] at he; cases he
  | true => obtain ⟨rc, rfl, -⟩ := ha; cases he

theorem still_uc (he : e.still) (ha : May s e a) (hm : Micro D a u v) :
    (v.ctx t).uc = .poll st → (u.ctx t).uc = .poll st := by
  intro hv
  rcases uc_cases (t := t) hm with heq | ⟨k, b, rfl, hk⟩ | ⟨d, k, b, dormant, rfl, hk⟩ |
    ⟨rfl, -⟩ | ⟨poll, rfl, -⟩
  · rw [← heq]; exact hv
  · have := (suspends_polls ha.2.1 (by rw [← hk, hv]; rfl)).1
    rw [he] at this
    cases this
  · have := (suspends_polls ha.2.1 (by rw [← hk, hv]; rfl)).1
    rw [he] at this
    cases this
  · cases ha
  · exact absurd ha (still_enter he)

theorem stays_micro (hI : Inv u) (hS : SleepInv u) (hc : a.calm u) (he : e.still)
    (hu : Unhurried s e) (ha : May s e a) (hm : Micro D a u v) (h : Stays s e u) :
    Stays s e v := by
  have hne : ∀ t poll, a ≠ .enter t poll := by
    rintro t poll rfl
    exact still_enter he ha
  have keeps := fun t st (hu : (u.ctx t).uc = .poll st) => polls_keeps hI hS h.polls hc hm hu (hne t)
  refine ⟨polls_micro hI hS hc (pollsOnly_of_may ha) hm h.polls, fun t st => ?_, fun t st ht => ?_,
    fun t st hp => ?_⟩
  · rw [← h.uc]
    exact ⟨still_uc he ha hm, fun hv => (keeps t st hv).1⟩
  · rcases (keeps t st ((h.uc t st).2 ht)).2 with h1 | ⟨h1, hr, -⟩
    · rw [h1]; exact h.state t st ht
    · -- it is set for resume or interrupt
      cases hm with
      | sleepYield hpc =>
        cases h1
        exact absurd (by rw [hpc]; rfl) hr
      | resume hne' hf hst =>
        cases h1
        rcases hst with hst | hst | hst
        · have := (resumable_ne (h.polls.state ((h.uc t st).2 ht))).1
          exact absurd hst this
        · obtain ⟨hp, hq | hq⟩ := h.polls t st ((h.uc t st).2 ht)
          · rw [← hq, hst] at hp; cases hp
          · rw [hst] at hq; cases hq
        · rw [(h.uc t st).2 ht] at hst; cases hst
      | resumeFast => cases ha; cases he
      | interrupt =>
        cases h1
        exact .inr ⟨ha, by simp [queueNow, sleepqEnqueue, sleepqRemove, setCtx]⟩
      | @wake _ q c rest hq hne' hx =>
        cases h1
        have := hu (q, t) ha
        rw [ht] at this
        cases this
      | _ => cases h1
  · rcases post_micro hm hp with h1 | ⟨poll, rfl, -⟩
    · exact h.post t st h1
    · exact absurd rfl (hne t poll)

/-- An event interrupts one thread at most, and not the one that runs. -/
theorem interrupts_le (s : St) (e : Event) : s.interrupts e = [] ∨
    ∃ x, s.interrupts e = [x] ∧ s.me ≠ some x := by
  have notMe : ∀ x, s.notMe x = [] ∨ ∃ y, s.notMe x = [y] ∧ s.me ≠ some y := by
    intro x
    unfold St.notMe
    split
    · exact .inl rfl
    · exact .inr ⟨x, rfl, ‹_›⟩
  unfold St.interrupts
  split
  · exact notMe _
  · split
    · exact notMe _
    · exact .inl rfl
  · split
    · exact notMe _
    · exact .inl rfl
  · split
    · split
      · exact .inl rfl
      · exact notMe _
    · exact .inl rfl
  · exact .inl rfl

/-- A still event begins no wait and ends none; it leaves who waits alone, or
interrupts him. -/
theorem still_step (hI : Inv s) (hS : SleepInv s) (hP : Polls s) (hc : Calm s e) (he : e.still)
    (hu : Unhurried s e) (hcont : ∀ b, e = .cont b → ∀ t st, s.pc ≠ .post t (.poll st))
    (hs : s.step D e = some s') :
    (∀ t st, s'.inPoll t st ↔ s.inPoll t st) ∧ Stays s e s' := by
  have h := (calm_chain (I := Stays s e) hI hS hc hs (fun s1 hb => ?_)
    fun a u v ha hm hcalm hIu hSu h => stays_micro hIu hSu hcalm he hu ha hm h).2
  · refine ⟨fun t st => ⟨fun h1 => ?_, fun h1 => ?_⟩, h⟩
    · exact h1.imp (h.uc t st).1 (h.post t st)
    · refine h1.imp (h.uc t st).2 fun hpc => ?_
      have hb := busy_step (by rw [hpc]; simp) (by rw [hpc]; simp) (e := e)
        (fun b hb => hcont b hb t st hpc) hs
      rw [hb.2.2, hpc]
  · cases hb with
    | same => exact ⟨hP, fun _ _ => Iff.rfl, fun _ _ _ => .inl rfl, fun _ _ => id⟩
    | @create c _ hcr hm =>
      have hne : ∀ t poll, Act.create c ≠ .enter t poll := fun t poll he => by cases he
      have keeps := fun t st (hu : (s.ctx t).uc = .poll st) =>
        polls_keeps (a := .create c) hI hS hP trivial hm hu (hne t)
      refine ⟨polls_micro (a := .create c) hI hS trivial trivial hm hP,
        fun t st => ⟨fun h1 => ?_, fun h1 => (keeps t st h1).1⟩, fun t st h1 => ?_, fun t st => ?_⟩
      · rcases uc_cases (t := t) hm with heq | ⟨k, b, he, -⟩ | ⟨d, k, b, _, he, -⟩ | ⟨-, hk⟩ |
          ⟨poll, he, -⟩
        · rw [← heq]; exact h1
        · cases he
        · cases he
        · rw [hk] at h1; cases h1
        · cases he
      · exact (keeps t st h1).2.imp id fun h2 => by cases h2.1
      · rw [(create_frame hm).1]; exact id

/-- A still event blocks nobody in a wait for a descriptor. -/
theorem still_unpolled (hI : Inv s) (he : e.still) (hs : s.step D e = some s')
    (h : (s.ctx t).state.polling = false) : (s'.ctx t).state.polling = false := by
  obtain ⟨s1, hb, hch⟩ := step_micro hI.base hs
  have keeps : ∀ {a u v}, Micro D a u v → (∀ st, a = .enterLib t st → st.polling = false) →
      (u.ctx t).state.polling = false → (v.ctx t).state.polling = false := by
    intro a u v hm hlib hu
    rcases state_micro (t := t) hm with ⟨h, -⟩ | ⟨st, ha, h⟩ | ⟨-, -, h, -⟩ | ⟨-, -, h⟩ | h
    · rw [h]; exact hu
    · rw [h]; exact hlib st ha
    · exact ready_unpolled h
    · rw [h]; rfl
    · rw [h]; rfl
  refine hch.inv (I := fun u => (u.ctx t).state.polling = false) (fun a u v ha hm hu => ?_) ?_
  · refine keeps hm ?_ hu
    rintro st rfl
    obtain ⟨k, hk, rfl⟩ := Option.map_eq_some_iff.1 ha
    by_contra hp
    have hp : k.coState.polling := by simpa using hp
    have hpolls : k.polls := by cases k <;> first | rfl | cases hp
    rw [(suspends_polls hk hpolls).1] at he
    cases he
  · cases hb with
    | same => exact h
    | create _ hm => exact keeps hm (by simp) h

/-! ## Switches -/

/-- A thread that waits for a descriptor is parked in its wait. -/
theorem block_poll {b : Bool} (hst : st.polling) (hI : Inv s)
    (h : s.step D (.block st.waiting b) = some s') : ∃ t, s.pc = .user t ∧
      s' = (s.inLib t st).parked t (.poll st) b := by
  have hop : ∀ b, s.block D b st.waiting = s.poll st b := by
    intro b
    cases st <;> first | rfl | cases hst
  simp only [step] at h
  split at h
  · rename_i t hpc
    split at h
    · have hme := hI.me t (by rw [hpc]; rfl)
      rw [hop, St.poll, setState_eq hme, Option.bind_some] at h
      have hk : Suspends (s.inLib t st) t (.poll st) :=
        ⟨polling_resumable hst, by simp [inLib, setCtx, Call.coState], by simp [Call.queue]⟩
      have hm : Micro D (.yield t (.poll st) b) (s.inLib t st) s' :=
        yieldAs_micro rfl hme hk rfl h
      cases hm
      exact ⟨t, hpc, rfl⟩
    · cases h
  · cases h

/-- A context that is switched to runs, in its thread or in the call it saved. -/
theorem enter_spec {u : St} (h : u.enter t = some s') : s'.pc.runs = some t ∧ s'.me = some t ∧
    (s'.ctx t).state = .resumed ∧ (s'.ctx t).rc = (u.ctx t).rc ∧
    (s'.ctx t).expireTicks = (u.ctx t).expireTicks ∧ (∀ x, x ≠ t → s'.ctx x = u.ctx x) ∧
    ((u.ctx t).uc ≠ .start → s'.pc = .post t (u.ctx t).uc) := by
  rcases enter_cases h with ⟨hu, rfl⟩ | ⟨-, -, rfl⟩
  · exact ⟨rfl, rfl, by simp [setCtx], by simp [setCtx], by simp [setCtx],
      fun x hx => by simp [setCtx, hx], fun h => absurd hu h⟩
  · exact ⟨rfl, rfl, by simp [setCtx], by simp [setCtx], by simp [setCtx],
      fun x hx => by simp [setCtx, hx], fun _ => rfl⟩

/-- `t` is switched to; nothing happens to the other threads. -/
structure Switched (s s' : St) (t : Ptr) : Prop where
  before : s.pc = .sched
  runs : s'.pc.runs = some t
  state : (s'.ctx t).state = .resumed
  alive : (s'.ctx t).f = (s.ctx t).f
  rc : (s'.ctx t).rc = (s.ctx t).rc
  post : ∀ st, s'.pc = .post t (.poll st) ↔ (s.ctx t).uc = .poll st
  other : ∀ x, x ≠ t → s'.ctx x = s.ctx x

theorem switched_of_enter {u : St} (hpc : s.pc = .sched) (h : u.enter t = some s')
    (hu : ∀ x, x ≠ t → u.ctx x = s.ctx x) (huc : (u.ctx t).uc = (s.ctx t).uc)
    (hf : (u.ctx t).f = (s.ctx t).f) (hrc : (u.ctx t).rc = (s.ctx t).rc) : Switched s s' t := by
  obtain ⟨h1, -, h2, h3, -, h4, -⟩ := enter_spec h
  refine ⟨hpc, h1, h2, ?_, h3.trans hrc, fun st => ?_, fun x hx => (h4 x hx).trans (hu x hx)⟩ <;>
    rcases enter_cases h with ⟨h0, rfl⟩ | ⟨-, -, rfl⟩
  · simpa [setCtx] using hf
  · simpa [setCtx] using hf
  · rw [← huc, h0]
    simp
  · rw [← huc]
    simp

/-- What the sift resumes is switched to. -/
theorem next_switched (hS : SleepInv s) (hs : s.step D .next = some s') :
    ∃ t, t ∈ s.pending ∧ s.nextPick = some t ∧ Switched s s' t := by
  obtain ⟨t, u, hpc, hn, hp, hcase⟩ := next_cases hs
  have hpend := mem_pending_of_nextPick hn
  refine ⟨t, hpend, hn, ?_⟩
  have hu := hp.ctx_eq
  rcases hcase with ⟨-, h⟩ | ⟨hd, -⟩
  · refine switched_of_enter hpc h (fun x hx => ?_) ?_ ?_ ?_ <;> rw [hu]
    · exact Function.update_of_ne hx ..
    all_goals rw [Function.update_self]
  · have := hS.resumable (.inr hpend)
    rw [hd] at this
    cases this

/-- What a poller resumes while it waits is switched to. -/
theorem polled_switched (hI : Inv s) (hp : (s.ctx t).state.polling)
    (hs : s.step D (.pollResume t none) = some s') : Switched s s' t := by
  have hr := polling_resumable hp
  simp only [step, St.pollResume] at hs
  split at hs
  · rename_i hg
    rw [if_neg (hI.live t (resumable_ne hr).1)] at hs
    simp only [pollerResume, if_pos hr] at hs
    exact switched_of_enter hg.1 hs (fun _ _ => rfl) rfl rfl rfl
  · cases hs

theorem Switched.inPoll (h : Switched s s' t) (hI' : Inv s') :
    s'.inPoll x st ↔ s.inPoll x st := by
  have hpc : ∀ k, s.pc ≠ .post x k := by
    intro k hk
    rw [h.before] at hk
    cases hk
  unfold St.inPoll
  by_cases hx : x = t
  · subst hx
    rw [h.post]
    have huc : (s'.ctx x).uc ≠ .poll st := by
      intro hu
      rcases hI'.ucRun x h.runs with h0 | h0 <;> rw [h0] at hu <;> cases hu
    simp [huc, hpc]
  · rw [h.other x hx]
    have hpost : s'.pc ≠ .post x (.poll st) := by
      intro hp
      have := h.runs
      rw [hp] at this
      exact hx (Option.some.inj this)
    simp [hpc, hpost]

/-- The wait of `t` has returned to it. -/
structure Returned (s s' : St) (t : Ptr) : Prop where
  pc : s'.pc = .user t
  me : s'.me = s.me
  ctx : ∀ u, s'.ctx u = { s.ctx u with rc := (s'.ctx u).rc }
  other : ∀ u, u ≠ t → s'.ctx u = s.ctx u
  filed : ∀ u, s'.filed u → s.filed u

theorem returned_cont {b : Bool} (hI : Inv s) (hpc : s.pc = .post t (.poll st))
    (hs : s.step D (.cont b) = some s') : Returned s s' t := by
  have hme := hI.me t (by rw [hpc]; rfl)
  simp only [step, hpc] at hs
  split at hs
  · obtain ⟨c, hc, rfl⟩ := Option.map_eq_some_iff.1 hs
    obtain rfl : c = t := Option.some.inj (hc.symm.trans hme)
    exact ⟨rfl, rfl, fun _ => rfl, fun _ _ => rfl, fun _ => id⟩
  · cases hs

/-! ## Who is alive -/

/-- Who has a thread after an event. -/
theorem lives_step (hI : Inv s) (hS : SleepInv s) (hc : Calm s e) (hs : s.step D e = some s') :
    (s'.ctx x).f ≠ none ↔
      ((s.ctx x).f ≠ none ∧ ¬ (e = .exit false ∧ s.pc = .user x)) ∨ s.creates e = some x := by
  constructor
  · intro hf
    rcases alive_or_created hI hs hf with ⟨h1, -⟩ | ⟨-, h1, -⟩
    · exact .inr h1
    · refine .inl ⟨h1, ?_⟩
      rintro ⟨rfl, hpc⟩
      simp only [step, hpc] at hs
      split at hs
      · have hw : ∀ t ∈ s.wq.queue (.ctx x), t ∉ s.pending := fun t ht =>
          hc.1 t (List.mem_append_right _ (List.mem_map.2 ⟨(.ctx x, t), by
            simp [wakes, hpc, Pc.runs, wakesAll, ht], rfl⟩))
        have h2 := (exit_spec hs (hI.resumed x (.inl hpc)) hS.queue hw).1
        rw [h2] at hf
        exact hf rfl
      · cases hs
  · rintro (⟨hf, hx⟩ | hcr)
    · refine (calm_chain (I := fun u => (u.ctx x).f ≠ none) hI hS hc hs (fun s1 hb => ?_)
        fun a u v ha hm hcalm hIu hSu hu => ?_).2
      · cases hb with
        | same => exact hf
        | @create c _ hcr hm =>
          by_cases hcx : c = x
          · subst hcx; exact absurd (hS.created hI hm).1 hf
          · rw [(micro_sameFor hm (by simpa [Act.subject] using hcx)).ctx]
            exact hf
      · have h1 := (life_micro (x := x) hm (by rintro rfl; cases ha) fun poll => ⟨?_, ?_, ?_⟩).1
        · rw [h1]; exact hu
        · rintro rfl; exact hx ha
        · rintro rfl
          cases hm with
          | discard hpc hp hst => exact hSu.not_discard hcalm hp hst
        · rintro rfl
          cases hm with
          | release hl => exact hu (hSu.dead x (hl.imp id And.left))
    · exact (created_step hI hs hcr).1

/-- A thread is created in a context without one. -/
theorem creates_free (hI : Inv s) (hS : SleepInv s) (hs : s.step D e = some s')
    (hc : s.creates e = some x) : (s.ctx x).f = none := by
  obtain ⟨s1, hb, -⟩ := step_micro hI.base hs
  cases hb with
  | same hn => rw [hc] at hn; cases hn
  | create hcr hm =>
    cases hc.symm.trans hcr
    exact (hS.created hI hm).1

/-- Who is finalized by an event that is no switch runs and ends, or is dead. -/
theorem still_finalizes (hS : SleepInv s) (he : e.still) (hx : x ∈ s.finalizes e) :
    (e = .exit false ∧ s.pc.runs = some x) ∨ (s.ctx x).f = none := by
  unfold finalizes at hx
  split at hx
  · exact .inl ⟨rfl, by simpa using hx⟩
  · cases he
  · cases he
  · have := (List.mem_filter.1 (List.mem_filter.1 hx).1).2
    exact .inr (hS.dead x ((of_decide_eq_true this).imp id And.left))
  · cases hx

end
end Mnthr

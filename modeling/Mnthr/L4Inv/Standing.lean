import Mnthr.L4Inv.Line

/-!
# Who is in the sleep queue

In every calm run, a thread that was set for resume or interrupt is in the
sleep queue under `MNTHR_SLEEP_RESUME_NOW`, and one in a timed wait is in it
under its deadline, until it is switched to (`Standing`). `SleepInv` says what
the queue may hold; this is the converse, what it must hold.
-/
namespace Mnthr
open St

/-- Set for resume or interrupt. -/
def CoState.ready : CoState → Bool
  | .setResume | .setInterrupt => true
  | _ => false

/-- The states of the waits that always have a deadline. -/
def CoState.timed : CoState → Bool
  | .sleep | .waitfor | .peek => true
  | _ => false

structure Standing (s : St) : Prop where
  ready : ∀ c, (s.ctx c).state.ready → s.filed c ∧ (s.ctx c).expireTicks = SLEEP_RESUME_NOW
  timed : ∀ c, (s.ctx c).state.timed → s.filed c ∨ s.pc.runs = some c

/-- Nobody parks as ready, and nobody waits with a deadline outside the sleep
queue. -/
def Act.stands : Act → Prop
  | .enterLib _ st => st.ready = false
  | .yield _ k _ => k.coState.timed = false
  | _ => True

theorem standing_init (objs : Objs) (now : Nat) : Standing (St.init objs now) := by
  constructor <;> simp [St.init, Ctx.init, CoState.ready, CoState.timed]

section
variable {D : Diag} {a : Act} {e : Event} {s s' u : St} {t : Ptr}

/-- Who writes `co.state`. -/
theorem state_micro (hm : Micro D a s s') :
    ((s'.ctx t).state = (s.ctx t).state ∧
      ((s'.ctx t).expireTicks = (s.ctx t).expireTicks ∨ s.pc.runs = some t)) ∨
    (∃ st, a = .enterLib t st ∧ (s'.ctx t).state = st) ∨
    (a.files = some t ∧ (s.ctx t).f ≠ none ∧ (s'.ctx t).state.ready ∧
      (s'.ctx t).expireTicks = SLEEP_RESUME_NOW) ∨
    (∃ poll, a = .enter t poll ∧ (s'.ctx t).state = .resumed) ∨
    (s'.ctx t).state = .dormant := by
  by_cases hx : a.subject = some t
  swap
  · exact .inl (by rw [(micro_sameFor hm hx).ctx]; exact ⟨rfl, .inl rfl⟩)
  cases hm with
  | env | gcList | sift => cases hx
  | append | removeMe | complete | quit | unlink => exact .inl ⟨rfl, .inl rfl⟩
  | attr | rc | drop => cases hx; exact .inl (by simp [setCtx])
  | enterLib => cases hx; exact .inr (.inl ⟨_, rfl, by simp [inLib, setCtx]⟩)
  | yield => cases hx; exact .inl (by simp [parked, setCtx])
  | expire hpc => cases hx; exact .inl ⟨by simp [setCtx], .inr (by rw [hpc]; rfl)⟩
  | sleepYield hpc =>
    cases hx
    exact .inl ⟨by simp [parked, asleep, setCtx], .inr (by rw [hpc]; rfl)⟩
  | resume hne hf | interrupt hne hf =>
    cases hx
    refine .inr (.inr (.inl ⟨rfl, hf, ?_⟩))
    simp [queueNow, sleepqEnqueue, sleepqRemove, setCtx, CoState.ready]
  | resumeFast hpc hf =>
    cases hx
    exact .inr (.inr (.inl ⟨rfl, hf, by simp [setCtx, CoState.ready]⟩))
  | wake =>
    cases hx
    unfold woken
    split
    · exact .inl ⟨rfl, .inl rfl⟩
    · rename_i hf
      refine .inr (.inr (.inl ⟨rfl, hf, ?_⟩))
      simp [queueNow, sleepqEnqueue, sleepqRemove, setCtx, CoState.ready]
  | createFree => cases hx; exact .inl (by simp [setCtx])
  | createNew | release | die | discard =>
    cases hx
    exact .inr (.inr (.inr (.inr (by simp [buried, setCtx, Ctx.cleared, Ctx.init]))))
  | @enter _ _ _ _ poll hpc hp hst hs =>
    cases hx
    refine .inr (.inr (.inr (.inl ⟨poll, rfl, ?_⟩)))
    rcases enter_cases hs with ⟨-, rfl⟩ | ⟨-, -, rfl⟩ <;> simp [setCtx]

theorem enter_state {poll : Bool} (hm : Micro D (.enter t poll) s s') :
    (s'.ctx t).state = .resumed := by
  cases hm with
  | enter hpc hp hst hs => rcases enter_cases hs with ⟨-, rfl⟩ | ⟨-, -, rfl⟩ <;> simp [setCtx]

theorem standing_micro (h : Standing s) (hI : Inv s) (hS : SleepInv s) (ha : a.calm s)
    (hst : a.stands) (hm : Micro D a s s') : Standing s' := by
  have filing := fun t => filed_micro (t := t) hS ha hm
  -- a context stays where it is until it is switched to
  have stays : ∀ {c}, s.filed c → (s'.ctx c).state ≠ .resumed → s'.filed c := by
    intro c hf hne
    rcases (filing c).left hf with hf' | ⟨poll, rfl⟩
    · exact hf'
    · exact absurd (enter_state hm) hne
  constructor
  · intro c hc
    rcases state_micro (t := c) hm with ⟨heq, hx⟩ | ⟨st, rfl, he⟩ | ⟨hf, hl, -, hx⟩ |
      ⟨poll, -, he⟩ | hd
    · obtain ⟨hf, hk⟩ := h.ready c (heq ▸ hc)
      refine ⟨stays hf (fun he => by rw [he] at hc; cases hc), ?_⟩
      rcases hx with hx | hrun
      · exact hx.trans hk
      · exact absurd hf fun hf => hf.elim (hS.running c hrun).1 (hS.running c hrun).2
    · rw [he] at hc
      rw [show st.ready = false from hst] at hc
      cases hc
    · exact ⟨(filing c).put hf hl, hx⟩
    · rw [he] at hc; cases hc
    · rw [hd] at hc; cases hc
  · intro c hc
    by_cases hrun' : s'.pc.runs = some c
    · exact .inr hrun'
    refine .inl ?_
    have hne : (s'.ctx c).state ≠ .resumed := fun he => by rw [he] at hc; cases hc
    by_cases hrun : s.pc.runs = some c
    · -- who stops running has gone to sleep, or is in no timed wait
      rcases leaves_micro hm hrun hrun' with ⟨k, b, rfl⟩ | ⟨d, k, b, dormant, rfl⟩ | rfl | rfl
      · cases hm with
        | yield hpc hk ht =>
          rw [show ((s.parked c k b).ctx c).state = (s.ctx c).state by simp [parked, setCtx],
            hk.state, show k.coState.timed = false from hst] at hc
          cases hc
      · exact (filing c).put rfl (hI.live c (hI.run c hrun))
      · cases hm with
        | die => simp [buried, setCtx, Ctx.cleared, CoState.timed] at hc
      · cases hm with
        | quit hpc =>
          rw [show (s.ctx c).state = .resumed from hI.resumed c (.inl hpc)] at hc
          cases hc
    · rcases state_micro (t := c) hm with ⟨heq, -⟩ | ⟨st, rfl, -⟩ | ⟨hf, hl, -⟩ | ⟨poll, -, he⟩ | hd
      · exact stays ((h.timed c (heq ▸ hc)).resolve_right hrun) hne
      · cases hm with
        | enterLib hpc =>
          refine absurd ?_ hrun
          rcases hpc with hpc | ⟨k, hpc, -⟩ <;> rw [hpc] <;> rfl
      · exact (filing c).put hf hl
      · exact absurd he hne
      · rw [hd] at hc; cases hc

/-- A call suspends its thread in a state that nobody else gives it, and in a
timed one only with a deadline. -/
theorem suspends_stands {k : Call} (hk : s.suspends e = some k) :
    k.coState.ready = false ∧ (s.deadlineOf e = none → k.coState.timed = false) := by
  unfold suspends at hk
  split at hk
  all_goals first
    | (cases hk; exact ⟨rfl, fun hd => by first | rfl | cases hd⟩)
    | (split at hk <;> cases hk; exact ⟨rfl, fun _ => rfl⟩)
    | (obtain ⟨o, -, rfl⟩ := Option.map_eq_some_iff.1 hk; exact ⟨rfl, fun _ => rfl⟩)
    | skip
  · obtain ⟨hc, hl⟩ := Option.filter_eq_some_iff.1 hk
    cases k <;> simp_all [Call.loops, Call.coState, CoState.ready, CoState.timed]
  · cases hk

theorem stands_of_may (ha : May s e a) : a.stands := by
  cases a with
  | enterLib c st =>
    obtain ⟨k, hk, rfl⟩ := Option.map_eq_some_iff.1 ha
    exact (suspends_stands hk).1
  | yield c k b => exact (suspends_stands ha.2.1).2 ha.2.2
  | _ => trivial

theorem standing_step (h : Standing s) (hI : Inv s) (hS : SleepInv s) (hc : Calm s e)
    (hs : s.step D e = some s') : Standing s' := by
  refine (calm_chain hI hS hc hs (fun s1 hb => ?_) fun a u v ha hm hcalm hIu hSu hu =>
    standing_micro hu hIu hSu hcalm (stands_of_may ha) hm).2
  cases hb with
  | same => exact h
  | create hcr hm => exact standing_micro (a := .create _) h hI hS trivial trivial hm

end

/-! ## Until it is switched to -/

/-- `c` is in the sleep queue, or was taken out by the current sift, and its
time comes at `K`. -/
def St.dueBy (s : St) (K : Nat) (c : Ptr) : Prop := s.filed c ∧ (s.ctx c).expireTicks ≤ K

section
variable {D : Diag} {a : Act} {e : Event} {s s' u : St} {c t : Ptr} {K : Nat}

/-- What is in the sleep queue is switched to by the sift only. -/
theorem enter_filed {poll : Bool} (hS : SleepInv s) (ha : Act.calm s (.enter c poll))
    (hf : s.filed c) : poll = false := by
  cases poll with
  | false => rfl
  | true =>
    obtain ⟨h1, h2⟩ := hS.polling ha
    exact absurd hf fun hf => hf.elim h1 h2

theorem dueBy_micro (hK : SLEEP_RESUME_NOW ≤ K) (hI : Inv s) (hS : SleepInv s) (ha : a.calm s)
    (hm : Micro D a s s') (h : s.dueBy K c) : s'.dueBy K c ∨ a = .enter c false := by
  rcases (filed_micro (t := c) hS ha hm).left h.1 with hf | ⟨poll, rfl⟩
  swap
  · exact .inr (by rw [enter_filed hS ha h.1])
  have hrun : s.pc.runs ≠ some c := fun hr =>
    h.1.elim (hS.running c hr).1 (hS.running c hr).2
  refine or_iff_not_imp_right.2 fun hne => ⟨hf, ?_⟩
  rcases state_micro (t := c) hm with ⟨-, hx⟩ | ⟨st, rfl, -⟩ | ⟨-, -, -, hx⟩ | ⟨poll, rfl, -⟩ | hd
  · rw [hx.resolve_right hrun]; exact h.2
  · cases hm with
    | enterLib hpc =>
      refine absurd ?_ hrun
      rcases hpc with hpc | ⟨k, hpc, -⟩ <;> rw [hpc] <;> rfl
  · rw [hx]; exact hK
  · exact absurd (by rw [enter_filed hS ha h.1]) hne
  · have := (sinv_micro hI hS ha hm).1.resumable hf
    rw [hd] at this
    cases this

/-- Who the sift switches to runs until the next event. -/
theorem next_keeps (ha : May s .next a) (hm : Micro D a u s') (hr : u.pc.runs = some c) :
    s'.pc.runs = some c := by
  by_contra hr'
  rcases leaves_micro hm hr hr' with ⟨k, b, rfl⟩ | ⟨d, k, b, dormant, rfl⟩ | rfl | rfl
  · simp [May, suspends] at ha
  · simp [May, suspends] at ha
  · cases ha.1
  · cases ha.1

theorem dueBy_step (hK : SLEEP_RESUME_NOW ≤ K) (hI : Inv s) (hS : SleepInv s) (hc : Calm s e)
    (hs : s.step D e = some s') (h : s.dueBy K c) :
    s'.dueBy K c ∨ (e = .next ∧ c ∈ s.pending) ∧ s'.pc.runs = some c := by
  refine (calm_chain (I := fun u => u.dueBy K c ∨ (e = .next ∧ c ∈ s.pending) ∧ u.pc.runs = some c)
    hI hS hc hs (fun s1 hb => ?_) fun a u v ha hm hcalm hIu hSu hu => ?_).2
  · cases hb with
    | same => exact .inl h
    | create hcr hm =>
      exact .inl ((dueBy_micro (a := .create _) hK hI hS trivial hm h).resolve_right (by simp))
  · rcases hu with hu | ⟨⟨rfl, hin⟩, hr⟩
    · refine (dueBy_micro hK hIu hSu hcalm hm hu).imp id fun he => ?_
      subst he
      exact ⟨⟨ha.1, mem_pending_of_nextPick ha.2⟩, enter_runs hm⟩
    · exact .inr ⟨⟨rfl, hin⟩, next_keeps ha hm hr⟩

/-- The batch is resumed from its head. -/
theorem pending_step (hI : Inv s) (hS : SleepInv s) (hc : Calm s e) (he : e ≠ .sift)
    (hs : s.step D e = some s') : s'.pending <:+ s.pending ∧
      ∀ c ∈ s.pending, c ∈ s'.pending ∨ e = .next ∧ s'.pc.runs = some c := by
  -- within the event, the contexts missing in the batch are one, and it runs
  refine (calm_chain (I := fun u => u.pending <:+ s.pending ∧
      (u.pending = s.pending ∨ e = .next ∧ ∃ t, s.pending = t :: u.pending ∧ u.pc.runs = some t))
    hI hS hc hs (fun s1 hb => ?_) fun a u v ha hm hcalm hIu hSu hu => ?_).2.imp id ?_
  · have hp : s1.pending = s.pending := by
      cases hb with
      | same => rfl
      | create hcr hm => exact (sinv_micro (a := .create _) hI hS trivial hm).2 id
    rw [hp]
    exact ⟨List.suffix_refl _, .inl rfl⟩
  · have hsift : a ≠ .sift := fun h => he (by subst h; exact ha)
    obtain ⟨h1, h2⟩ := hu
    rcases pending_micro hIu hSu hcalm hm hsift with hp | ⟨x, rfl, hp⟩
    · rw [hp]
      refine ⟨h1, h2.imp id ?_⟩
      rintro ⟨rfl, t, ht, hr⟩
      exact ⟨rfl, t, ht, next_keeps ha hm hr⟩
    · refine ⟨(List.suffix_cons x _).trans (hp ▸ h1), .inr ?_⟩
      rcases h2 with h2 | ⟨-, t, -, hr⟩
      · exact ⟨ha.1, x, by rw [← h2, hp], enter_runs hm⟩
      · -- nobody is switched to while a thread runs
        cases hm with
        | enter hpc => rw [hpc] at hr; cases hr
  · rintro (hp | ⟨hn, t, hp, hr⟩) c hc
    · exact .inl (hp ▸ hc)
    · rw [hp] at hc
      rcases List.mem_cons.1 hc with rfl | hc
      · exact .inr ⟨hn, hr⟩
      · exact .inl hc

/-- A sift takes out what is under the keys below the clock. -/
theorem mem_sift (hS : SleepInv s) (hs : s.sift = some s') (hc : s.filed c) :
    c ∈ s'.pending ↔ (s.ctx c).expireTicks < s.now := by
  obtain ⟨hpc, hr, ht, rfl⟩ := sift_cases hs
  have hq := hS.queue
  rw [ht, hr] at hq
  obtain ⟨hbatch, hview⟩ := hq.view_sift s.now
  obtain ⟨-, hall, -⟩ := hq.sift fun t => decide ((s.ctx t).expireTicks < s.now)
  have h0 : s.pending = [] := by rw [St.pending, ht, hr]; rfl
  have hin : c ∈ s.sleepq.all := by simpa only [St.filed, h0, List.not_mem_nil, or_false] using hc
  have hat := (hq.at_key hin).1
  -- the batch is what the views below the clock hold
  rw [St.pending, ht]
  change c ∈ Sleepq.batch _ [] _ ↔ _
  constructor
  · intro hm
    rw [hbatch, List.mem_flatMap] at hm
    obtain ⟨k, hk, hm⟩ := hm
    rw [hq.filed k c (Sleepq.mem_view.1 hm)]
    exact of_decide_eq_true (List.mem_filter.1 hk).2
  · intro hlt
    rw [hall, List.mem_append] at hin
    refine hin.resolve_right fun hm => ?_
    obtain ⟨k, hk⟩ := Sleepq.mem_all.1 hm
    have hv := Sleepq.mem_view.2 hk
    rw [hview k] at hv
    split at hv
    · cases hv
    · rename_i hge
      rw [hq.filed k c (Sleepq.mem_view.1 hv)] at hlt
      exact hge hlt

/-! ## Keys -/

/-- A context gets a key when it is put in the sleep queue, and keeps it. -/
theorem key_micro (hI : Inv s) (hS : SleepInv s) (ha : a.calm s) (hm : Micro D a s s')
    (hs : a ≠ .sift) (hc : c ∈ s'.sleepq.all) :
    (c ∈ s.sleepq.all ∧ (s'.ctx c).expireTicks = (s.ctx c).expireTicks) ∨
      (s'.ctx c).expireTicks = SLEEP_RESUME_NOW ∨
      ∃ d k b dormant, a = .sleepYield c d k b dormant ∧ (s'.ctx c).expireTicks = d := by
  by_cases hf : a.files = some c
  · cases hm with
    | sleepYield =>
      cases hf
      exact .inr (.inr ⟨_, _, _, _, rfl, by simp [parked, asleep, setCtx]⟩)
    | resume | interrupt =>
      cases hf
      exact .inr (.inl (by simp [queueNow, sleepqEnqueue, sleepqRemove, setCtx]))
    | resumeFast => cases hf; exact .inr (.inl (by simp [setCtx]))
    | wake =>
      cases hf
      by_cases hl : (s.ctx c).f = none
      · unfold woken at hc ⊢
        rw [if_pos hl] at hc ⊢
        exact .inl ⟨hc, rfl⟩
      · refine .inr (.inl ?_)
        unfold woken
        rw [if_neg hl]
        simp [queueNow, sleepqEnqueue, sleepqRemove, setCtx]
    | _ => cases hf
  · -- what is not put in the queue was under the same key before
    obtain ⟨hat, -⟩ := (sinv_micro hI hS ha hm).1.queue.at_key hc
    have hp : ∀ x, a.files = some x → decide (x = c) = false := fun x hx =>
      decide_eq_false fun he => hf (he ▸ hx)
    have hv := view_micro (p := fun x => decide (x = c)) hS ha hm hs hp (s'.ctx c).expireTicks
    have hmem : c ∈ s.sleepq.view (s'.ctx c).expireTicks := by
      have hin : c ∈ (s'.sleepq.view (s'.ctx c).expireTicks).filter fun x => decide (x = c) :=
        List.mem_filter.2 ⟨Sleepq.mem_view.2 hat, decide_eq_true rfl⟩
      rw [hv] at hin
      exact (List.mem_filter.1 hin).1
    have hat₀ := Sleepq.mem_view.1 hmem
    exact .inl ⟨Sleepq.mem_all.2 ⟨_, hat₀⟩, (hS.queue.filed _ _ hat₀).symm⟩

theorem key_step (hI : Inv s) (hS : SleepInv s) (hc : Calm s e) (he : e ≠ .sift)
    (hs : s.step D e = some s') (ht : c ∈ s'.sleepq.all)
    (hk : SLEEP_RESUME_NOW < (s'.ctx c).expireTicks) :
    (c ∈ s.sleepq.all ∧ (s'.ctx c).expireTicks = (s.ctx c).expireTicks) ∨
      s.deadlineOf e = some (s'.ctx c).expireTicks := by
  refine (calm_chain (I := fun u => c ∈ u.sleepq.all → SLEEP_RESUME_NOW < (u.ctx c).expireTicks →
      (c ∈ s.sleepq.all ∧ (u.ctx c).expireTicks = (s.ctx c).expireTicks) ∨
        s.deadlineOf e = some (u.ctx c).expireTicks)
    hI hS hc hs (fun s1 hb ht hk => ?_) fun a u v ha hm hcalm hIu hSu hu ht hk => ?_).2 ht hk
  · cases hb with
    | same => exact .inl ⟨ht, rfl⟩
    | create hcr hm =>
      rcases key_micro (a := .create _) hI hS trivial hm (by simp) ht with h | h | ⟨_, _, _, _, h, -⟩
      · exact .inl h
      · omega
      · cases h
  · rcases key_micro hIu hSu hcalm hm (fun h => he (by subst h; exact ha)) ht with
      ⟨h1, h2⟩ | h | ⟨d, k, b, dm, rfl, h⟩
    · rw [h2] at hk ⊢
      exact hu h1 hk
    · omega
    · exact .inr (h ▸ ha.2.2.1)

/-- A sift leaves the keys from the clock on. -/
theorem key_sift (hS : SleepInv s) (hs : s.sift = some s') (ht : c ∈ s'.sleepq.all) :
    c ∈ s.sleepq.all ∧ s'.ctx c = s.ctx c ∧ s.now ≤ (s.ctx c).expireTicks := by
  obtain ⟨hpc, hr, ht0, he⟩ := sift_cases hs
  have hq := hS.queue
  rw [ht0, hr] at hq
  obtain ⟨h1, h2, -⟩ := hq.sift fun t => decide ((s.ctx t).expireTicks < s.now)
  have hall : c ∈ s.sleepq.all := by
    rw [h2, List.mem_append]
    subst he
    exact .inr ht
  refine ⟨hall, by rw [he], ?_⟩
  by_contra hlt
  have hp := (mem_sift hS hs (.inl hall)).2 (Nat.not_le.1 hlt)
  subst he
  rw [St.pending, ht0] at hp
  exact h1.notMem_batch ht hp

end

end Mnthr

import Mnthr.L4Inv.Untimed

/-!
# Where a thread is

In the fragment `Plain` every started thread that does not run is in one place,
and the place says what may resume it: the sleep queue or the current batch,
under the deadline of its `mnthr_sleep` or to be resumed now, or a wait queue,
with `expire_ticks` undefined. `Places` is what has to be added for this to the
invariants of the fragment.
-/
namespace Mnthr
open St

structure Places (s : St) : Prop where
  calls : ∀ t, (s.ctx t).uc.plain
  post : ∀ t k, s.pc = .post t k → k.plain
  cleared : ∀ t, s.pc.runs = some t → (s.ctx t).expireTicks = SLEEP_UNDEFINED
  hosted : ∀ t, s.wq.hosting t ≠ none → (s.ctx t).expireTicks = SLEEP_UNDEFINED
  somewhere : ∀ t, (s.ctx t).state ≠ .dormant →
    s.pc.runs = some t ∨ s.filed t ∨ s.wq.hosting t ≠ none
  asleep : ∀ t d, (s.ctx t).uc = .sleep d → (s.ctx t).state = .sleep ∧ (s.ctx t).expireTicks = d
  due : ∀ t ∈ s.pending, (s.ctx t).expireTicks < s.siftNow

theorem places_init (objs : Objs) (now : Nat) : Places (St.init objs now) := by
  constructor
  all_goals simp [St.init, Ctx.init, Pc.runs, WaitQs.empty, Call.plain, St.pending]

section
variable {D : Diag} {a : Act} {e : Event} {s s' u v : St} {t : Ptr} {q : Waitq}

theorem Places.toCalls (h : Places s) : PlainCalls s := ⟨h.calls, h.post⟩

/-! ## Micro-steps -/

section Micro
variable (hp : Plain s e) (hI : Inv u) (hS : SleepInv u) (hu : Places u)
  (hcalm : a.calm u) (ha : May s e a) (hm : Micro D a u v)
include hp hu ha hm

include hI hS hcalm

/-- Nothing that runs or is in a wait queue is put in the sleep queue. -/
theorem Places.unfiled_micro (hTv : Tidy v) (h : v.pc.runs = some t ∨ v.wq.hosting t ≠ none)
    (hf : (u.ctx t).f ≠ none) : a.files ≠ some t := by
  intro hfile
  have hfv := (filed_micro hS hcalm hm).put hfile hf
  by_cases hr : v.pc.runs = some t
  · have := (sinv_micro hI hS hcalm hm).1.running t hr
    exact hfv.elim this.1 this.2
  · obtain ⟨q, hq⟩ := Option.ne_none_iff_exists'.1 (h.resolve_left hr)
    have hplain := (calls_micro hp.untimed.1 hu.toCalls ha hm).calls t
    exact (hTv.parked t q hq hr).out (Call.plain_target hplain) hfv

/-- The `expire_ticks` of what runs or is in a wait queue. -/
theorem Places.expire_undefined (hTv : Tidy v)
    (h : v.pc.runs = some t ∨ v.wq.hosting t ≠ none)
    (hsame : (u.ctx t).expireTicks = SLEEP_UNDEFINED) : (v.ctx t).expireTicks = SLEEP_UNDEFINED := by
  rcases expire_micro (t := t) hm with he | he | ⟨d, rfl⟩ | ⟨hfile, hf⟩ | ⟨hr, hfile⟩
  · rw [he]; exact hsame
  · exact he
  · obtain ⟨x, w, b, rfl⟩ := ha
    cases hp.1
  · exact absurd hfile (hu.unfiled_micro hp hI hS hcalm ha hm hTv h hf)
  · exact absurd hfile (hu.unfiled_micro hp hI hS hcalm ha hm hTv h (hI.live t (hI.run t hr)))

theorem Places.cleared_micro (hTv : Tidy v) (hv : v.pc.runs = some t) :
    (v.ctx t).expireTicks = SLEEP_UNDEFINED := by
  rcases runs_micro hm hv with hr | ⟨poll, rfl⟩
  · exact hu.expire_undefined hp hI hS hcalm ha hm hTv (.inl hv) (hu.cleared t hr)
  · cases poll with
    | true =>
      obtain ⟨rc, rfl, -⟩ := ha
      cases hp.1
    | false =>
      cases hm with
      | enter hpc hpk hst hs =>
        rcases enter_cases hs with ⟨-, rfl⟩ | ⟨-, -, rfl⟩ <;>
          cases hpk <;> simp [setCtx, popTmp, popRunq, clearExpire]

theorem Places.hosted_micro (hTv : Tidy v) (hq : v.wq.hosting t ≠ none) :
    (v.ctx t).expireTicks = SLEEP_UNDEFINED := by
  refine hu.expire_undefined hp hI hS hcalm ha hm hTv (.inr hq) ?_
  obtain ⟨q, hq⟩ := Option.ne_none_iff_exists'.1 hq
  rcases hosting_micro hm hq with hqu | rfl
  · exact hu.hosted t (by rw [hqu]; simp)
  · cases hm with
    | append hpc => exact hu.cleared t (by rw [hpc]; rfl)

theorem Places.somewhere_micro (hv : (v.ctx t).state ≠ .dormant) :
    v.pc.runs = some t ∨ v.filed t ∨ v.wq.hosting t ≠ none := by
  have hfiling := filed_micro (t := t) hS hcalm hm
  by_cases hd : (u.ctx t).state = .dormant
  · rcases started_micro hm hd hv with ⟨hfile, hf⟩ | hr
    · exact .inr (.inl (hfiling.put hfile hf))
    · exact absurd hd (hI.run t hr)
  have hf : (u.ctx t).f ≠ none := hI.live t hd
  rcases hu.somewhere t hd with hr | hfl | hq
  · by_cases hrv : v.pc.runs = some t
    · exact .inl hrv
    rcases leaves_micro hm hr hrv with ⟨k, b, rfl⟩ | ⟨d, k, b, dormant, rfl⟩ | rfl | rfl
    · -- it yields in a wait queue
      obtain ⟨-, hk, hdl⟩ := ha
      rcases (untimed_suspends hp.untimed.1 hk).2 with ⟨d, -, hd'⟩ | ⟨hkq, -⟩
      · rw [hdl] at hd'; cases hd'
      · obtain ⟨q, hkq⟩ := Option.ne_none_iff_exists'.1 hkq
        cases hm with
        | yield hpc hsus =>
          right; right
          rw [show (u.parked t k b).wq = u.wq from rfl, (hsus.queued q hkq).1]
          simp
    · exact .inr (.inl (hfiling.put rfl hf))
    · cases hm; simp [buried, setCtx, Ctx.cleared] at hv
    · obtain ⟨rfl, -⟩ := ha
      cases hp.1
  · rcases hfiling.left hfl with hfl | ⟨poll, rfl⟩
    · exact .inr (.inl hfl)
    · exact .inl (enter_runs hm)
  · by_cases hqv : v.wq.hosting t = none
    · rcases hosting_lost hm hq hqv with ⟨q, rfl⟩ | ⟨q, rfl⟩ | rfl
      · exact .inr (.inl (hfiling.put rfl hf))
      · cases hm with
        | removeMe hpc ht =>
          have := Call.plain_target (hu.post t _ hpc)
          rw [ht] at this
          cases this
      · cases hm with
        | unlink hf' => exact absurd hf' hf
    · exact .inr (.inr hqv)

omit hcalm in
/-- A sleeping thread is left alone until it is switched to. -/
theorem Places.asleep_same {d : Nat} (h : Places s) (hT : Tidy u) (hd : (u.ctx t).uc = .sleep d)
    (he : ∀ poll, a ≠ .enter t poll) :
    (v.ctx t).state = (u.ctx t).state ∧ (v.ctx t).expireTicks = (u.ctx t).expireTicks := by
  obtain ⟨hst, -⟩ := hu.asleep t d hd
  have hrun : u.pc.runs ≠ some t := fun hr => by
    rcases hI.ucRun t hr with h0 | h0 <;> rw [h0] at hd <;> cases hd
  have hf : (u.ctx t).f ≠ none := hI.live t (by rw [hst]; decide)
  by_cases hx : a.subject = some t
  swap
  · rw [(micro_sameFor hm hx).ctx]; exact ⟨rfl, rfl⟩
  cases hm with
  | env | gcList | sift => cases hx
  | unlink => exact ⟨rfl, rfl⟩
  | attr | rc => cases hx; simp [setCtx]
  | enterLib hpc =>
    cases hx
    exact absurd (by rcases hpc with hpc | ⟨k, hpc, -⟩ <;> rw [hpc] <;> rfl) hrun
  | expire hpc | append hpc | yield hpc | sleepYield hpc | removeMe hpc | complete _ _ hpc | die hpc
  | quit hpc =>
    cases hx
    exact absurd (by rw [hpc]; rfl) hrun
  | resume hne hf' hst' => cases hx; simp [hst, hd] at hst'
  | resumeFast hpc hf' hst' => cases hx; simp [hst] at hst'
  | interrupt =>
    rw [May, untimed_interrupts h.toCalls hp.untimed.1] at ha
    cases ha
  | @wake _ q _ rest hq =>
    cases hx
    have hw := hT.parked t q ((hT.ok.mem t q).1 (by simp [hq])) hrun
    have := hw.queue
    rw [hd] at this
    cases this
  | createFree | createNew => exact absurd ha id
  | discard hpc hpk hst' => cases hx; rw [hst] at hst'; cases hst'
  | release hl => cases hx; exact absurd (hS.dead t (hl.imp id And.left)) hf
  | drop hr hf' => cases hx; exact absurd hf' hf
  | @enter _ _ _ c poll =>
    exact absurd (congrArg (Act.enter · poll) (Option.some.inj hx)) (he poll)

omit hcalm in
theorem Places.asleep_micro {d : Nat} (h : Places s) (hT : Tidy u)
    (hd : (v.ctx t).uc = .sleep d) :
    (v.ctx t).state = .sleep ∧ (v.ctx t).expireTicks = d := by
  rcases uc_cases (t := t) hm with hc | ⟨k, b, rfl, hc⟩ | ⟨d', k, b, dormant, rfl, hc⟩ | ⟨rfl, -⟩ |
    ⟨poll, rfl, hc⟩
  · have hdu : (u.ctx t).uc = .sleep d := hc ▸ hd
    obtain ⟨h1, h2⟩ := hu.asleep_same hp hI hS ha hm h hT hdu (by
      intro poll heq
      subst heq
      cases hm with
      | enter hpc hpk hst hs =>
        rcases enter_cases hs with ⟨h0, rfl⟩ | ⟨-, -, rfl⟩
        · have : (u.ctx t).uc = .start := by
            cases hpk <;> simpa [popTmp, popRunq, clearExpire, setCtx] using h0
          rw [this] at hdu
          cases hdu
        · simp [setCtx] at hd)
    rw [h1, h2]
    exact hu.asleep t d hdu
  · -- who yields without a deadline is not asleep
    obtain ⟨-, hk, hdl⟩ := ha
    rcases (untimed_suspends hp.untimed.1 hk).2 with ⟨d', -, hd'⟩ | ⟨hkq, -⟩
    · rw [hdl] at hd'; cases hd'
    · rw [← hc, hd] at hkq; exact absurd rfl hkq
  · obtain ⟨-, hk, hdl, -⟩ := ha
    rw [hc] at hd
    subst hd
    rcases (untimed_suspends hp.untimed.1 hk).2 with ⟨d'', hd'', hdl'⟩ | ⟨hkq, -⟩
    · cases hd''
      cases hdl.symm.trans hdl'
      cases hm with
      | sleepYield hpc hsus =>
        have := hsus.state
        simp [St.parked, St.asleep, setCtx, this, Call.coState]
    · exact absurd rfl hkq
  · exact absurd ha id
  · rw [hc] at hd; cases hd

/-- What the batch holds has expired. -/
theorem Places.due_micro (ht : t ∈ v.pending) : (v.ctx t).expireTicks < v.siftNow := by
  by_cases hab : a.batch
  · cases hm with
    | @discard _ s1 c poll hpc hpk hst =>
      have hr : (u.ctx c).state.resumable := by
        cases poll with
        | true => exact polling_resumable hcalm
        | false =>
          obtain ⟨-, -, h3, -⟩ := hS.popped hpk
          exact hS.resumable (.inr (by rw [h3]; exact List.mem_cons_self ..))
      rw [hst] at hr
      cases hr
    | @enter _ s1 _ c poll hpc hpk hst hs =>
      cases poll with
      | true => obtain ⟨rc, rfl, -⟩ := ha; cases hp.1
      | false =>
        obtain ⟨-, -, h3, -⟩ := hS.popped hpk
        have hpend : v.pending = s1.pending := by
          rcases enter_cases hs with ⟨-, rfl⟩ | ⟨-, -, rfl⟩ <;> rfl
        rw [hpend] at ht
        have htc : c ≠ t := by
          intro heq
          subst heq
          have hn := (List.nodup_append.1 hS.queue.nodup).2.1
          rw [show u.sleepq.batch u.tmp u.runq = u.pending from rfl, h3, List.nodup_cons] at hn
          exact hn.1 ht
        have hmic : Micro D (.enter c false) u v := .enter hpc hpk hst hs
        rw [(micro_sameFor hmic (by simpa [Act.subject] using htc)).ctx,
          siftNow_micro hmic (by simp)]
        exact hu.due t (by rw [h3]; exact List.mem_cons_of_mem _ ht)
    | sift hs =>
      obtain ⟨-, hr, htmp, rfl⟩ := sift_cases hs
      have hq := hS.queue
      rw [htmp, hr] at hq
      obtain ⟨-, -, h3⟩ := hq.sift fun t => decide ((u.ctx t).expireTicks < u.now)
      obtain ⟨y, hy, hty⟩ := h3 t (by simpa only [St.pending, htmp, Sleepq.batch] using ht)
      exact hty ▸ of_decide_eq_true hy
    | _ => exact absurd hab id
  · rw [(sinv_micro hI hS hcalm hm).2 hab] at ht
    have hdue := hu.due t ht
    rw [siftNow_micro hm (by intro heq; subst heq; exact hab trivial)]
    rcases expire_micro (t := t) hm with he | he | ⟨d, rfl⟩ | ⟨hfile, -⟩ | ⟨-, hfile⟩
    · rw [he]; exact hdue
    · rw [he]; exact Nat.lt_of_le_of_lt (Nat.zero_le _) hdue
    · obtain ⟨x, w, b, rfl⟩ := ha
      cases hp.1
    · exact absurd ht (hS.files_notPending hcalm hm hfile)
    · exact absurd ht (hS.files_notPending hcalm hm hfile)

theorem places_micro (h : Places s) (hT : Tidy u) (hTv : Tidy v) : Places v where
  calls := (calls_micro hp.untimed.1 hu.toCalls ha hm).calls
  post := (calls_micro hp.untimed.1 hu.toCalls ha hm).post
  cleared := fun _ hv => hu.cleared_micro hp hI hS hcalm ha hm hTv hv
  hosted := fun _ hq => hu.hosted_micro hp hI hS hcalm ha hm hTv hq
  somewhere := fun _ hv => hu.somewhere_micro hp hI hS hcalm ha hm hv
  asleep := fun _ _ hd => hu.asleep_micro hp hI hS ha hm h hT hd
  due := fun _ ht => hu.due_micro hp hI hS hcalm ha hm ht

end Micro

/-! ## Events -/

/-- A new thread is nowhere yet. -/
theorem places_create {c : Ptr} (hI : Inv s) (hS : SleepInv s) (hT : Tidy s) (h : Places s)
    (hm : Micro D (.create c) s u) : Places u := by
  obtain ⟨hf, hd⟩ := hS.created hI hm
  have hctx : ∀ t, t ≠ c → u.ctx t = s.ctx t := fun t ht =>
    (micro_sameFor hm (by simpa [Act.subject] using ht.symm)).ctx
  obtain ⟨hw, hp, hpd, hsn, hfl⟩ : u.wq = s.wq ∧ u.pc = s.pc ∧ u.pending = s.pending ∧
      u.siftNow = s.siftNow ∧ ∀ t, u.filed t ↔ s.filed t := by
    cases hm <;> exact ⟨rfl, rfl, rfl, rfl, fun t => Iff.rfl⟩
  have hdu : (u.ctx c).uc = .start ∧ (u.ctx c).state = .dormant := by
    cases hm with
    | createFree => simp [setCtx, hd]
    | createNew => simp [setCtx, Ctx.init]
  -- the context is in no queue and does not run
  have hrun : s.pc.runs ≠ some c := fun hr => hI.run c hr hd
  have hne : ∀ {t}, s.pc.runs = some t ∨ t ∈ s.pending ∨ s.wq.hosting t ≠ none → t ≠ c := by
    intro t ht heq
    subst heq
    rcases ht with ht | ht | ht
    · exact hrun ht
    · exact (hS.dormant hI (.inr hd)).2 ht
    · obtain ⟨q, hq⟩ := Option.ne_none_iff_exists'.1 ht
      have := (hT.parked t q hq hrun).resumable
      rw [hd] at this
      cases this
  refine ⟨fun t => ?_, fun t k hk => h.post t k (hp ▸ hk), fun t ht => ?_, fun t ht => ?_,
    fun t ht => ?_, fun t d ht => ?_, fun t ht => ?_⟩
  · by_cases htc : t = c
    · subst htc; rw [hdu.1]; rfl
    · rw [hctx t htc]; exact h.calls t
  · rw [hp] at ht
    rw [hctx t (hne (.inl ht))]; exact h.cleared t ht
  · rw [hw] at ht
    rw [hctx t (hne (.inr (.inr ht)))]; exact h.hosted t ht
  · have htc : t ≠ c := by intro heq; subst heq; exact ht hdu.2
    rw [hp, hfl, hw]
    exact h.somewhere t (hctx t htc ▸ ht)
  · have htc : t ≠ c := by intro heq; subst heq; rw [hdu.1] at ht; cases ht
    rw [hctx t htc] at ht ⊢
    exact h.asleep t d ht
  · rw [hpd] at ht
    rw [hctx t (hne (.inr (.inl ht))), hsn]; exact h.due t ht

/-- What holds of the fragment. -/
structure PlainInv (s : St) : Prop where
  inv : Inv s
  sleep : SleepInv s
  tidy : Tidy s
  unwaited : Unwaited s
  places : Places s

theorem PlainInv.toUntimed (h : PlainInv s) : UntimedInv s :=
  ⟨h.inv, h.sleep, h.tidy, h.unwaited, h.places.toCalls⟩

/-- Invariant rule for the micro-steps of an event of the fragment. -/
theorem plain_chain {I : St → Prop} (h : PlainInv s) (hp : Plain s e) (hs : s.step D e = some s')
    (hbegin : ∀ s1, Begin D s e s1 → I s1)
    (hstep : ∀ a u v, May s e a → Micro D a u v → a.calm u → Inv u → SleepInv u → TidyAt s e u →
      Places u → I u → I v) : PlainInv s' ∧ I s' := by
  obtain ⟨⟨h1, h2, h3, h4, -⟩, h5, h6⟩ := untimed_chain (I := fun u => Places u ∧ I u)
    h.toUntimed hp.untimed hs (fun s1 hb => ⟨by
      cases hb with
      | same => exact h.places
      | create hcr hm => exact places_create h.inv h.sleep h.tidy h.places hm, hbegin s1 hb⟩)
    fun a u v ha hm hcalm hIu hSu hTu hTv _ hu =>
      ⟨places_micro hp hIu hSu hu.1 hcalm ha hm h.places hTu.tidy hTv.tidy,
        hstep a u v ha hm hcalm hIu hSu hTu hu.1 hu.2⟩
  exact ⟨⟨h1, h2, h3, h4, h5⟩, h6⟩

theorem plain_step (h : PlainInv s) (hp : Plain s e) (hs : s.step D e = some s') : PlainInv s' :=
  (plain_chain (I := fun _ => True) h hp hs (fun _ _ => trivial)
    fun _ _ _ _ _ _ _ _ _ _ _ => trivial).1

end

theorem plain_init (objs : Objs) (now : Nat) : PlainInv (St.init objs now) :=
  ⟨inv_init objs now, sinv_init objs now, (tidy_init objs now).1, (tidy_init objs now).2,
    places_init objs now⟩

theorem plain_exec {D : Diag} {es : List Event} {s s' : St} (h : PlainInv s)
    (hc : Along (St.step D) Plain s es) (hs : exec (St.step D) s es = some s') : PlainInv s' :=
  exec_inv (fun _ _ _ hu hpu hs => plain_step hu hpu hs) h hc hs

end Mnthr

import Mnthr.L3Micro.Objects
import Mnthr.L4Inv.Threads

/-!
# Pinned contexts

`pin_protects`: as long as `co.abac` of a context is above 0, no thread is
created in it and `mnthr_gc` does not release it; once its thread is finalized,
`co.id` stays -1 and `co.rc` keeps its value, whatever the others do. The others
are everybody but the finalized thread itself: after an exit that `poller_resume`
takes for an interrupted system call `me` may still name it, and code outside
`mnthr_loop` could then call `mnthr_set_retval` in its name.
-/
namespace Mnthr
open St

/-- What `mnthr_ctx_finalize` leaves of a thread. -/
def St.finalized (s : St) (c : Ptr) : Prop := (s.ctx c).f = none ∧ (s.ctx c).id = -1

instance (s : St) (c : Ptr) : Decidable (s.finalized c) := by unfold finalized; infer_instance

section
variable {D : Diag} {a : Act} {e : Event} {s s' : St} {c : Ptr}

theorem finalized_dormant (hI : Inv s) (hf : s.finalized c) : (s.ctx c).state = .dormant := by
  by_contra hd
  exact hI.live c hd hf.1

/-- A finalized context stays so until it gets a new thread, and its return code
is written only by the thread that `me` names. -/
theorem finalized_micro (hI : Inv s) (hm : Micro D a s s') (hc : a ≠ .create c)
    (hf : s.finalized c) : s'.finalized c ∧ (s'.me = some c → s.me = some c) ∧
      (a ≠ .drop c → (s'.ctx c).rc = (s.ctx c).rc ∨ (s.me = some c ∧ a = .rc c (s'.ctx c).rc)) := by
  have hd := finalized_dormant hI hf
  obtain ⟨hfn, hid⟩ := hf
  have hr : s.pc.runs ≠ some c := fun hr => hI.run c hr hd
  -- the context itself is not written
  have same : s'.ctx c = s.ctx c → (s'.me = some c → s.me = some c) →
      s'.finalized c ∧ (s'.me = some c → s.me = some c) ∧ (a ≠ .drop c →
        (s'.ctx c).rc = (s.ctx c).rc ∨ (s.me = some c ∧ a = .rc c (s'.ctx c).rc)) := by
    intro hctx hme
    exact ⟨by rw [finalized, hctx]; exact ⟨hfn, hid⟩, hme, fun _ => .inl (by rw [hctx])⟩
  by_cases hx : a.subject = some c
  swap
  · have hs := micro_sameFor hm hx
    exact same hs.ctx hs.me
  cases hm with
  | env | gcList | sift => cases hx
  | attr =>
    cases hx
    exact ⟨by simpa [finalized, setCtx] using ⟨hfn, hid⟩, fun h => h, fun _ => .inl (by simp [setCtx])⟩
  | rc x v hw =>
    cases hx
    refine ⟨by simpa [finalized, setCtx] using ⟨hfn, hid⟩, fun h => h, fun _ => .inr ?_⟩
    exact ⟨by simpa [hfn, hd] using hw, by simp [setCtx]⟩
  | enterLib hpc =>
    cases hx
    rcases hpc with hpc | ⟨k, hpc, -⟩ <;> exact absurd (by rw [hpc]; rfl) hr
  | expire hpc | append hpc | yield hpc | sleepYield hpc | removeMe hpc | complete _ _ hpc | die hpc
  | quit hpc =>
    cases hx
    exact absurd (by rw [hpc]; rfl) hr
  | resume _ hf | interrupt _ hf | resumeFast _ hf => cases hx; exact absurd hfn hf
  | wake =>
    cases hx
    refine same ?_ ?_
    all_goals
      unfold woken
      rw [if_pos hfn]
    · rfl
    · exact id
  | createFree | createNew => cases hx; exact absurd rfl hc
  | @discard _ s1 _ _ hpc hp hst =>
    cases hx
    have hs1 : (s1.ctx c).rc = (s.ctx c).rc ∧ s1.me = s.me := by
      cases hp <;> simp [popTmp, popRunq, clearExpire, setCtx]
    refine ⟨by simp [finalized, buried, setCtx, Ctx.cleared], ?_, fun _ => .inl ?_⟩
    · show s1.me = some c → _
      rw [hs1.2]
      exact id
    · simpa [buried, setCtx, Ctx.cleared] using hs1.1
  | release =>
    cases hx
    exact ⟨by simp [finalized, setCtx, Ctx.cleared], fun h => h,
      fun _ => .inl (by simp [setCtx, Ctx.cleared])⟩
  | unlink => exact same rfl id
  | drop =>
    cases hx
    exact ⟨by simpa [finalized, setCtx] using ⟨hfn, hid⟩, fun h => h, fun h => absurd rfl h⟩
  | enter _ _ hst =>
    cases hx
    rw [hd] at hst
    cases hst

/-- A pinned context is not taken for a new thread. -/
theorem creates_pinned (hI : Inv s) (hc : c ∈ s.ctxes) (ha : 0 < (s.ctx c).abac) :
    s.creates e ≠ some c := by
  have hbrk : c ≠ s.brk := Nat.ne_of_lt (hI.alloc c hc)
  have hpop : s.popFree.1 ≠ c := by
    unfold popFree
    split
    · rename_i x hx
      intro hxc
      have h0 : (s.ctx x).abac = 0 := by simpa using List.find?_some hx
      rw [show x = c from hxc] at h0
      omega
    · exact hbrk.symm
  unfold creates
  split
  all_goals simp [hpop, hbrk.symm]

theorem released_pinned (ha : 0 < (s.ctx c).abac) : c ∉ s.gcReleased := by
  intro hm
  have h0 : (s.ctx c).abac = 0 := by simpa using (List.mem_filter.1 hm).2
  omega

theorem May.ne_drop (ha : 0 < (s.ctx c).abac) (hm : May s e a) : a ≠ .drop c := by
  intro heq
  subst heq
  exact released_pinned ha hm.2

theorem pinned_alloc (hI : Inv s) (hs : s.step D e = some s') (hc : c ∈ s.ctxes)
    (ha : 0 < (s.ctx c).abac) : c ∈ s'.ctxes := by
  obtain ⟨s1, hb, hch⟩ := step_micro hI.base hs
  refine hch.inv (I := fun u => c ∈ u.ctxes) (fun a u v hm hr hu => ?_)
    ((hb.sameFor (creates_pinned hI hc ha)).alloc hc)
  by_cases hx : a.subject = some c
  swap
  · exact (micro_sameFor hr hx).alloc hu
  cases hr with
  | drop => exact absurd (congrArg Act.drop (Option.some.inj hx)) (hm.ne_drop ha)
  | createNew => exact List.mem_append_left _ hu
  | enter _ hp _ hs =>
    cases hp <;> rcases enter_cases hs with ⟨-, rfl⟩ | ⟨-, -, rfl⟩ <;> exact hu
  | discard _ hp => cases hp <;> exact hu
  | wake => unfold woken; split <;> exact hu
  | sift => cases hx
  | _ => exact hu

theorem finalized_step (hI : Inv s) (hs : s.step D e = some s') (hc : c ∈ s.ctxes)
    (ha : 0 < (s.ctx c).abac) (hf : s.finalized c) : s'.finalized c ∧
      ((s'.ctx c).rc = (s.ctx c).rc ∨
        (s.me = some c ∧ ((s'.ctx c).rc ≠ 0 ∨ c ∈ s.rcWrites e))) := by
  obtain ⟨s1, hb, hch⟩ := step_micro hI.base hs
  have hstart := hb.sameFor (creates_pinned hI hc ha)
  have hrun := hch.inv (I := fun u => Inv u ∧ u.finalized c ∧ (u.me = some c → s.me = some c) ∧
      ((u.ctx c).rc = (s.ctx c).rc ∨ (s.me = some c ∧ ((u.ctx c).rc ≠ 0 ∨ c ∈ s.rcWrites e))))
    (fun a u v hm hr hu => ?_)
    ⟨inv_begin hI hb, by rw [finalized, hstart.ctx]; exact hf, hstart.me, .inl (by rw [hstart.ctx])⟩
  · exact ⟨hrun.2.1, hrun.2.2.2⟩
  · obtain ⟨hIu, hfu, hmeu, hrcu⟩ := hu
    obtain ⟨hfv, hmev, hrcv⟩ := finalized_micro hIu hr (by intro heq; subst heq; exact hm) hfu
    refine ⟨inv_micro hIu hr, hfv, fun h => hmeu (hmev h), ?_⟩
    rcases hrcv (hm.ne_drop ha) with hrc | ⟨hme, rfl⟩
    · rw [hrc]; exact hrcu
    · exact .inr ⟨hmeu hme, hm⟩

/-! ## Calls that act on the caller -/

end

/-- `mnthr_set_retval`, and a descriptor wait that fails: calls that write the
return code of the context that `me` names. -/
def Event.own : Event → Bool
  | .call (.setRetval _) | .call (.pollFail _) => true
  | _ => false

section
variable {D : Diag} {e : Event} {s s' : St} {c : Ptr}

/-- With `me` left over from a finalized thread, the scheduler runs. -/
theorem sched_of_me (hI : Inv s) (hf : s.finalized c) (hme : s.me = some c) : s.pc = .sched := by
  have hd := finalized_dormant hI hf
  have hne : ∀ x, s.pc.runs = some x → False := by
    intro x hx
    have := hI.me x hx
    rw [hme] at this
    cases this
    exact hI.run c hx hd
  cases hpc : s.pc with
  | sched => rfl
  | user x | lib x | post x => exact (hne x (by rw [hpc]; rfl)).elim

/-- An event that stores no return code leaves that of a finalized, pinned
context alone. -/
theorem rc_quiet (hI : Inv s) (hs : s.step D e = some s') (hq : s.stores e = false)
    (h : (s'.ctx c).rc = (s.ctx c).rc ∨ (s.me = some c ∧ ((s'.ctx c).rc ≠ 0 ∨ c ∈ s.rcWrites e)))
    (hw : c ∉ s.rcWrites e) : (s'.ctx c).rc = (s.ctx c).rc := by
  rcases h with h | ⟨-, h | h⟩
  · exact h
  · exact ((step_effect hI.base hs).rc hq c).resolve_right h
  · exact absurd h hw

theorem setResume_ctx {x : Ptr} (h : s.setResume x = some s') (hx : c ≠ x) :
    s'.ctx c = s.ctx c := by
  unfold setResume at h
  split at h
  · cases h
  · split at h
    · cases h; rfl
    · cases h
      exact (sameFor_queueNow hx).ctx

/-- With a code, the poller stores it and goes on as without one. -/
theorem pollResume_rc {x : Ptr} {v : Int} (hI : Inv s)
    (hs : s.step D (.pollResume x (some v)) = some s') (hc : c ∈ s.ctxes)
    (ha : 0 < (s.ctx c).abac) (hf : s.finalized c) : (s'.ctx c).rc = (s.ctx c).rc := by
  simp only [step, St.pollResume] at hs
  split at hs
  swap
  · cases hs
  rename_i hp
  split at hs
  · cases hs; rfl
  rename_i hfx
  have hcx : c ≠ x := by
    intro heq
    subst heq
    exact hfx hf.1
  have hI0 : Inv (s.setCtx x { s.ctx x with rc := v }) :=
    inv_micro (D := D) hI (.rc x v (.inl hfx))
  have hctx : (s.setCtx x { s.ctx x with rc := v }).ctx c = s.ctx c := by simp [setCtx, hcx]
  have hs0 : (s.setCtx x { s.ctx x with rc := v }).step D (.pollResume x none) = some s' := by
    simp only [step, St.pollResume]
    rw [if_pos (by exact hp), if_neg (by simpa [setCtx] using hfx)]
    exact hs
  have hf0 : (s.setCtx x { s.ctx x with rc := v }).finalized c := by
    rw [finalized, hctx]
    exact hf
  have h0 := (finalized_step hI0 hs0 hc (by rw [hctx]; exact ha) hf0).2
  rw [rc_quiet hI0 hs0 rfl h0 List.not_mem_nil, hctx]

theorem setInterrupt_ctx {x : Ptr} (hs : s.step D (.call (.setInterrupt x)) = some s')
    (hme : s.me = some c) : s'.ctx c = s.ctx c := by
  simp only [step] at hs
  split at hs
  swap
  · cases hs
  simp only [callOp, St.setInterrupt] at hs
  split at hs
  swap
  · cases hs
  split at hs
  · cases hs
  rename_i hne
  split at hs
  · cases hs; rfl
  · cases hs
    rw [(sameFor_queueNow (by intro heq; subst heq; exact hne hme)).ctx]

theorem signalError_rc {g : Nat} {v : Int} (hs : s.step D (.call (.signalError g v)) = some s')
    (hd : (s.ctx c).state = .dormant) : (s'.ctx c).rc = (s.ctx c).rc := by
  simp only [step] at hs
  split at hs
  swap
  · cases hs
  simp only [callOp, St.signalError] at hs
  split at hs
  · cases hs; rfl
  split at hs
  · cases hs
  split at hs
  · rename_i o _ _ hst
    -- the owner waits for the signal
    have hoc : c ≠ o := by
      intro heq
      subst heq
      rw [hd] at hst
      cases hst
    rw [setResume_ctx hs hoc]
    simp [setCtx, hoc]
  · cases hs; rfl

theorem finalized_rc (hI : Inv s) (hs : s.step D e = some s') (hc : c ∈ s.ctxes)
    (ha : 0 < (s.ctx c).abac) (hf : s.finalized c) (ho : e.own → s.me ≠ some c) :
    (s'.ctx c).rc = (s.ctx c).rc := by
  have h := (finalized_step hI hs hc ha hf).2
  by_cases hme : s.me = some c
  swap
  · exact h.resolve_right fun h => hme h.1
  have hpc := sched_of_me hI hf hme
  cases e with
  | block op b | cont b | exit b => simp [step, hpc] at hs
  | sift | next | tick v | pollFast x => exact rc_quiet hI hs rfl h List.not_mem_nil
  | pollResume x o =>
    cases o with
    | none => exact rc_quiet hI hs rfl h List.not_mem_nil
    | some v => exact pollResume_rc hI hs hc ha hf
  | call op =>
    cases op with
    | setRetval | pollFail => exact absurd hme (ho rfl)
    | setInterrupt x => rw [setInterrupt_ctx hs hme]
    | signalError g v => exact signalError_rc hs (finalized_dormant hI hf)
    | gc => exact rc_quiet hI hs rfl h (released_pinned ha)
    | _ => exact rc_quiet hI hs rfl h List.not_mem_nil

end

/-- The pin on `c` holds before every step of a run from `s` to `s'`. -/
structure Protected (D : Diag) (c : Ptr) (s : St) (es : List Event) (s' : St) : Prop where
  created : Along (St.step D) (fun u e => u.creates e ≠ some c) s es
  released : Along (St.step D) (fun u _ => c ∉ u.gcReleased) s es
  alloc : c ∈ s'.ctxes
  id : s.finalized c → s'.finalized c
  rc : s.finalized c → Along (St.step D) (fun u e => e.own → u.me ≠ some c) s es →
    (s'.ctx c).rc = (s.ctx c).rc

theorem pin_run {D : Diag} {c : Ptr} {es : List Event} {s s' : St} (hI : Inv s) (hc : c ∈ s.ctxes)
    (hs : exec (St.step D) s es = some s')
    (hp : Along (St.step D) (fun u _ => 0 < (u.ctx c).abac) s es) : Protected D c s es s' := by
  induction es generalizing s with
  | nil =>
    cases hs
    exact ⟨trivial, trivial, hc, fun h => h, fun _ _ => rfl⟩
  | cons e es ih =>
    obtain ⟨u, hu, hr⟩ := exec_cons hs
    have h := ih (inv_step hI hu) (pinned_alloc hI hu hc hp.1) hr (hp.2 u hu)
    have hfin : s.finalized c → u.finalized c := fun hf => (finalized_step hI hu hc hp.1 hf).1
    have next : ∀ {P : St → Prop}, P u → ∀ v, s.step D e = some v → P v := by
      intro P hP v hv
      cases hu.symm.trans hv
      exact hP
    refine ⟨⟨creates_pinned hI hc hp.1, next h.created⟩, ⟨released_pinned hp.1, next h.released⟩,
      h.alloc, fun hf => h.id (hfin hf), fun hf ho => ?_⟩
    rw [h.rc (hfin hf) (ho.2 u hu)]
    exact finalized_rc hI hu hc hp.1 hf ho.1

theorem pin_protects {D : Diag} {objs : Objs} {now : Nat} {c : Ptr} {before es : List Event}
    {s s' : St} (hr : Reaches D objs now before s) (hc : c ∈ s.ctxes)
    (hs : exec (St.step D) s es = some s')
    (hp : Along (St.step D) (fun u _ => 0 < (u.ctx c).abac) s es) : Protected D c s es s' :=
  pin_run hr.inv hc hs hp

/-- Context 0 is pinned; its thread sets a return code and exits. -/
def pinnedExit : List Event :=
  [.call (.spawn 0), .call (.incabac 0), .call (.spawn 0), .tick 10, .sift, .next,
    .call (.setRetval 42), .exit false]

/-- Thread 1 tries everything that takes a context. -/
def meddling : List Event :=
  [.next, .call (.setInterrupt 0), .call (.run 0), .call (.spawn 0), .call (.signalInit 0 0),
    .call (.signalError 0 7), .block (.join 0) false, .call .gc, .block (.peek 0 5) false]

theorem pin_protects_meddling : ∃ s s', Reaches .sample .sample 0 pinnedExit s ∧
    exec (St.step .sample) s meddling = some s' ∧ (s'.ctx 0).id = -1 ∧ (s'.ctx 0).rc = 42 ∧
    Protected .sample 0 s meddling s' := by
  obtain ⟨s, hs⟩ := Option.isSome_iff_exists.1 (show (sampleRun pinnedExit).isSome by decide)
  have hpin : Along (St.step .sample) (fun u _ => 0 < (u.ctx 0).abac) s meddling :=
    along_of_decide (sampleRun_fact hs (f := fun s =>
      checkAlong (St.step .sample) (fun u _ => decide (0 < (u.ctx 0).abac)) s meddling) (by decide))
  have hown : Along (St.step .sample) (fun u e => e.own → u.me ≠ some 0) s meddling :=
    along_of_decide (sampleRun_fact hs (f := fun s =>
      checkAlong (St.step .sample) (fun u e => decide (e.own → u.me ≠ some 0)) s meddling)
      (by decide))
  have hf : s.finalized 0 := of_decide_eq_true
    (sampleRun_fact hs (f := fun s => decide (s.finalized 0)) (a := true) (by decide))
  have hc : 0 ∈ s.ctxes := of_decide_eq_true
    (sampleRun_fact hs (f := fun s => decide (0 ∈ s.ctxes)) (a := true) (by decide))
  obtain ⟨s', hs'⟩ := Option.isSome_iff_exists.1 (sampleRun_fact hs
    (f := fun s => (exec (St.step .sample) s meddling).isSome) (a := true) (by decide))
  have h := pin_protects hs hc hs' hpin
  refine ⟨s, s', hs, hs', (h.id hf).2, ?_, h⟩
  rw [h.rc hf hown]
  exact sampleRun_fact hs (f := fun s => (s.ctx 0).rc) (by decide)

end Mnthr

import Mnthr.L4Inv.Exit
import Mnthr.L5Runs.Sleep

/-!
# The end of a slice

`poller_resume(c)` is at its end in the step that takes control from thread
`c` back to the scheduler. `slice_complete`: the bookkeeping there is done, and
only done, when `errno` is not `EINTR`; for an exit, the sleep queue has to be
in order.
-/
namespace Mnthr
open St

/-- What `poller_resume(c)` leaves behind, when the last step `e` of the slice
takes `s` to `s'`: `me` is null, and if the thread's function returned, the
context is cleared and in `free_list`, its wait queue is empty, and every other
thread that was in it is queued for resume. -/
structure SliceComplete (c : Ptr) (s : St) (e : Event) (s' : St) : Prop where
  me : s'.me = none
  exited : (∃ b, e = .exit b) →
    s'.ctx c = (s.ctx c).cleared ∧ c ∈ s'.freeList ∧ s'.wq.queue (.ctx c) = [] ∧
      ∀ t ∈ s.wq.queue (.ctx c), t ≠ c → (s.ctx t).f ≠ none → Queued s' t

section
variable {D : Diag} {s s' : St} {e : Event}

/-- `me` survives a slice that ends with `EINTR`. -/
theorem me_of_eintr (hB : Base s) (he : e.eintr = true) (hs : s.step D e = some s') :
    s'.me = s.me := by
  obtain ⟨s1, hb, hch⟩ := step_micro hB hs
  have h1 : s1.me = s.me := by
    cases hb with
    | same => rfl
    | create hc hm => cases hm <;> rfl
  refine hch.inv (I := fun u => u.me = s.me) ?_ h1
  intro a u v ha hm hu
  cases hm with
  | yield => rw [← hu]; simp only [May] at ha; simp [parked, ha.1, he, setCtx]
  | sleepYield => rw [← hu]; simp only [May] at ha; simp [parked, ha.1, he, setCtx, asleep]
  | wake => rw [← hu]; unfold woken; split <;> rfl
  | die => obtain ⟨rfl, -⟩ := ha; cases he
  | @discard _ s1 c poll hpc hp =>
    rw [← hu]; cases hp <;> rfl
  | @enter _ s1 s' c poll =>
    cases poll with
    | false => obtain ⟨rfl, -⟩ := ha; cases he
    | true => obtain ⟨rc, rfl, -⟩ := ha; cases he
  | sift hs =>
    obtain ⟨-, -, -, rfl⟩ := sift_cases hs
    exact hu
  | _ => exact hu

/-- Without `EINTR`, the scheduler gets control with a null `me`. -/
theorem me_of_back (hB : Base s) (he : e.eintr = false) (hr : s.pc ≠ .sched)
    (hs : s.step D e = some s') (hback : s'.pc = .sched) : s'.me = none := by
  obtain ⟨s1, hb, hch⟩ := step_micro hB hs
  have h1 : s1.pc ≠ .sched := by
    cases hb with
    | same => exact hr
    | create hc hm => cases hm <;> exact hr
  refine hch.inv (I := fun u => u.pc = .sched → u.me = none) ?_ (fun h => absurd h h1) hback
  intro a u v ha hm hu hv
  cases hm with
  | enterLib | removeMe | complete => cases hv
  | yield => simp only [May] at ha; simp [parked, ha.1, he, setCtx]
  | sleepYield => simp only [May] at ha; simp [parked, ha.1, he, setCtx]
  | wake =>
    unfold woken at hv ⊢
    split
    · rename_i hf; rw [if_pos hf] at hv; exact hu hv
    · rename_i hf; rw [if_neg hf] at hv; exact hu hv
  | die => rfl
  | quit => obtain ⟨rfl, -⟩ := ha; cases he
  | @discard _ s1 c poll hpc hp => cases hp <;> exact hu hpc
  | @enter _ s1 s' c poll hpc hp hst hs =>
    rcases enter_cases hs with ⟨-, rfl⟩ | ⟨-, -, rfl⟩ <;> cases hv
  | sift hs =>
    obtain ⟨hpc, -, -, rfl⟩ := sift_cases hs
    exact hu hpc
  | _ => exact hu hv

end

theorem slice_complete {D : Diag} {objs : Objs} {now : Nat} {es : List Event} {s s' : St}
    {c : Ptr} {e : Event} (hr : Reaches D objs now es s) (hrun : s.pc.runs = some c)
    (hs : s.step D e = some s') (hback : s'.pc = .sched) :
    (SliceComplete c s e s' → e.eintr = false) ∧
      (e.eintr = false →
        ((∃ b, e = .exit b) → s.SleepqOk ∧ ∀ t ∈ s.wq.queue (.ctx c), t ∉ s.pending) →
        SliceComplete c s e s') := by
  have hI := hr.inv
  constructor
  · intro h
    by_contra he
    have he : e.eintr = true := by simpa using he
    have := h.me
    rw [me_of_eintr hI.base he hs, hI.me c hrun] at this
    cases this
  · intro he hex
    have hpc : s.pc ≠ .sched := by intro h; rw [h] at hrun; cases hrun
    refine ⟨me_of_back hI.base he hpc hs hback, ?_⟩
    intro hx
    obtain ⟨b, rfl⟩ := hx
    obtain ⟨hok, hp⟩ := hex ⟨b, rfl⟩
    cases he
    -- only a thread between calls can return from its function
    cases hpc' : s.pc with
    | sched => exact absurd hpc' hpc
    | lib x | post x k => simp [step, hpc'] at hs
    | user x =>
      rw [hpc'] at hrun
      cases hrun
      simp only [step, hpc'] at hs
      split at hs
      · exact exit_spec hs (hI.resumed c (.inl hpc')) hok hp
      · cases hs

/-- Thread 0 joins thread 1, which runs. -/
def joined : List Event :=
  [.call (.spawn 0), .call (.spawn 0), .tick 10, .sift, .next, .block (.join 1) false, .next]

theorem slice_complete_joined : ∃ s s', sampleRun joined = some s ∧
    s.step .sample (.exit false) = some s' ∧ s.wq.queue (.ctx 1) = [0] ∧
    SliceComplete 1 s (.exit false) s' := by
  obtain ⟨s, hs⟩ := Option.isSome_iff_exists.1 (show (sampleRun joined).isSome by decide)
  obtain ⟨s', hs'⟩ := Option.isSome_iff_exists.1
    (sampleRun_fact hs (f := fun s => (s.step .sample (.exit false)).isSome) (by decide))
  have hback : (s.step .sample (.exit false)).map St.pc = some .sched :=
    sampleRun_fact hs (f := fun s => (s.step .sample (.exit false)).map St.pc) (by decide)
  have hpend : s.pending = [] := sampleRun_fact hs (f := St.pending) (by decide)
  rw [hs'] at hback
  refine ⟨s, s', hs, hs', sampleRun_fact hs (f := fun s => s.wq.queue (.ctx 1)) (by decide),
    (slice_complete hs (sampleRun_fact hs (f := fun s => s.pc.runs) (by decide)) hs'
      (Option.some.inj hback)).2 rfl fun _ => ⟨(sinv_exec hs (along_of_decide (by decide))).2.queue,
      fun t _ hm => ?_⟩⟩
  rw [hpend] at hm
  cases hm

/-- The same exit, with `errno` left at `EINTR` by the thread. -/
theorem slice_incomplete_eintr : ∃ s s', sampleRun joined = some s ∧
    s.step .sample (.exit true) = some s' ∧ s'.pc = .sched ∧ s'.wq.queue (.ctx 1) = [0] ∧
    ¬ SliceComplete 1 s (.exit true) s' := by
  obtain ⟨s, hs⟩ := Option.isSome_iff_exists.1 (show (sampleRun joined).isSome by decide)
  obtain ⟨s', hs'⟩ := Option.isSome_iff_exists.1
    (sampleRun_fact hs (f := fun s => (s.step .sample (.exit true)).isSome) (by decide))
  have hafter : (s.step .sample (.exit true)).map (fun u => (u.pc, u.me, u.wq.queue (.ctx 1))) =
      some (.sched, some 1, [0]) :=
    sampleRun_fact hs (f := fun s => (s.step .sample (.exit true)).map
      (fun u => (u.pc, u.me, u.wq.queue (.ctx 1)))) (by decide)
  rw [hs'] at hafter
  simp only [Option.map_some, Option.some.injEq, Prod.mk.injEq] at hafter
  refine ⟨s, s', hs, hs', hafter.1, hafter.2.2, fun h => ?_⟩
  have := h.me
  rw [hafter.2.1] at this
  cases this

end Mnthr

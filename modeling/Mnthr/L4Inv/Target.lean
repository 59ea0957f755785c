import Mnthr.L4Inv.Threads

/-!
# The life of the thread a waiter waits for

`Alloc`: contexts that run or are free are allocated. `Alive x n` and
`Dead x` are the two states of the thread with id `n` in context `x`, from its
creation to the reuse of its context: a step takes it from the one to the
other only by its exit, and once it is dead its `co.rc` stays (`alive_step`,
`dead_step`). `Spares x` excludes what ends this: a new thread in `x`, the
release of `x` by `mnthr_gc`, and an exit that the scheduler does not see.
-/
namespace Mnthr
open St

/-! ## Allocation -/

structure Alloc (s : St) : Prop where
  free : ∀ c, c ∈ s.freeList ∨ c ∈ s.gcRest → c ∈ s.ctxes
  run : ∀ c, s.pc.runs = some c → c ∈ s.ctxes

section
variable {D : Diag} {a : Act} {e : Event} {s s' : St}

theorem alloc_init (objs : Objs) (now : Nat) : Alloc (St.init objs now) := by
  constructor <;> simp [St.init, Pc.runs]

theorem Picked.frame {c : Ptr} {poll : Bool} {s1 : St} (h : Picked s c poll s1) :
    c ∈ s.ctxes ∧ s1.ctxes = s.ctxes ∧ s1.freeList = s.freeList ∧ s1.gcRest = s.gcRest ∧
      s1.pc = s.pc ∧ s1.me = s.me := by
  cases h with
  | tmp hc | runq hc | poll hc => exact ⟨hc, rfl, rfl, rfl, rfl, rfl⟩

theorem St.enter_frame {c : Ptr} (h : s.enter c = some s') :
    s'.ctxes = s.ctxes ∧ s'.freeList = s.freeList ∧ s'.gcRest = s.gcRest ∧ s'.pc.runs = some c ∧
      s'.me = some c := by
  rcases enter_cases h with ⟨-, rfl⟩ | ⟨-, -, rfl⟩ <;> exact ⟨rfl, rfl, rfl, rfl, rfl⟩

/-- No micro-step takes away the context that runs. -/
theorem run_alloc_micro (h : ∀ c, s.pc.runs = some c → c ∈ s.ctxes)
    (hm : Micro D a s s') : ∀ c, s'.pc.runs = some c → c ∈ s'.ctxes := by
  intro c hc
  cases hm with
  | enterLib hpc =>
    cases hc
    refine h c ?_
    rcases hpc with hpc | ⟨k, hpc, -⟩ <;> rw [hpc] <;> rfl
  | yield | sleepYield | die | quit => cases hc
  | removeMe hpc | complete _ _ hpc => cases hc; exact h c (by rw [hpc]; rfl)
  | wake =>
    rw [(woken_frame _ _ _).2.2.2.1] at hc
    rw [(woken_frame _ _ _).1]
    exact h c hc
  | createNew => exact List.mem_append_left _ (h c hc)
  | discard hpc hp =>
    rw [show (St.buried _ _).pc = _ from hp.frame.2.2.2.2.1, hpc] at hc
    cases hc
  | @drop _ x hr =>
    have hcx : c ≠ x := by intro heq; subst heq; exact hr hc
    exact (List.mem_erase_of_ne hcx).2 (h c hc)
  | enter hpc hp hst hs =>
    rw [(enter_frame hs).2.2.2.1] at hc
    cases hc
    rw [(enter_frame hs).1, hp.frame.2.1]
    exact hp.frame.1
  | sift hs =>
    obtain ⟨-, -, -, rfl⟩ := sift_cases hs
    exact h c hc
  | _ => exact h c hc

theorem alloc_micro (h : Alloc s) (ha : ∀ c, a ≠ .drop c)
    (hm : Micro D a s s') : Alloc s' := by
  refine ⟨fun c hc => ?_, run_alloc_micro h.run hm⟩
  cases hm with
  | wake =>
    rw [(woken_frame _ _ _).2.1, (woken_frame _ _ _).2.2.1] at hc
    rw [(woken_frame _ _ _).1]
    exact h.free c hc
  | createFree => exact h.free c (hc.imp List.mem_of_mem_erase id)
  | createNew => exact List.mem_append_left _ (h.free c hc)
  | @die _ x hpc =>
    simp only [buried, List.mem_append, List.mem_singleton] at hc
    rcases hc with (hc | rfl) | hc
    · exact h.free c (.inl hc)
    · exact h.run c (by rw [hpc]; rfl)
    · exact h.free c (.inr hc)
  | @discard _ s1 x poll hpc hp =>
    obtain ⟨h1, h2, h3, h4, -⟩ := hp.frame
    simp only [buried, List.mem_append, List.mem_singleton, setCtx, h2, h3, h4] at hc ⊢
    rcases hc with (hc | rfl) | hc
    · exact h.free c (.inl hc)
    · exact h1
    · exact h.free c (.inr hc)
  | drop => exact absurd rfl (ha _)
  | gcList hl hs => exact hs.subset (List.mem_append.2 hc)
  | enter hpc hp hst hs =>
    rw [(enter_frame hs).2.1, (enter_frame hs).2.2.1, hp.frame.2.2.1, hp.frame.2.2.2.1] at hc
    rw [(enter_frame hs).1, hp.frame.2.1]
    exact h.free c hc
  | sift hs =>
    obtain ⟨-, -, -, rfl⟩ := sift_cases hs
    exact h.free c hc
  | _ => exact h.free c hc

theorem alloc_step (hI : Inv s) (h : Alloc s) (hs : s.step D e = some s') : Alloc s' := by
  by_cases hgc : e = .call .gc
  · -- `mnthr_gc` makes its lists anew, from contexts that it keeps
    subst hgc
    simp only [step] at hs
    split at hs
    · obtain ⟨s1, hm, -, hsub, rfl⟩ := gc_cases (D := D) hs
      refine ⟨fun c hc => hsub.subset ?_, ?_⟩
      · rw [← List.take_append_drop 1 s.gcPinned]
        exact List.mem_append.2 hc
      · exact (hm.inv (I := fun u => Inv u ∧ ∀ c, u.pc.runs = some c → c ∈ u.ctxes)
          (fun _ _ _ _ hm hu => ⟨inv_micro hu.1 hm, run_alloc_micro hu.2 hm⟩)
          ⟨hI, h.run⟩).2
    · cases hs
  · obtain ⟨s1, hb, hch⟩ := step_micro hI.base hs
    have h1 : Inv s1 ∧ Alloc s1 := by
      refine ⟨inv_begin hI hb, ?_⟩
      cases hb with
      | same => exact h
      | create _ hm => exact alloc_micro h (by simp) hm
    refine (hch.inv (I := fun u => Inv u ∧ Alloc u) ?_ h1).2
    intro a u v ha hm hu
    refine ⟨inv_micro hu.1 hm, alloc_micro hu.2 ?_ hm⟩
    intro c heq
    subst heq
    exact hgc ha.1

end

theorem Reaches.alloc {D : Diag} {objs : Objs} {now : Nat} {es : List Event} {s : St}
    (h : Reaches D objs now es s) : Alloc s :=
  (exec_inv (I := fun u => Inv u ∧ Alloc u) (C := fun _ _ => True)
    (fun _ _ _ hu _ hs => ⟨inv_step hu.1 hs, alloc_step hu.1 hu.2 hs⟩)
    ⟨inv_init objs now, alloc_init objs now⟩ (along_of_forall fun _ _ => trivial) h).2

/-! ## From creation to reuse -/

/-- The thread with id `n` is in `x` and has not exited. -/
structure Alive (x : Ptr) (n : Int) (s : St) : Prop where
  f : (s.ctx x).f ≠ none
  ident : (s.ctx x).id = n
  state : (s.ctx x).state ≠ .dormant
  resumed : (s.ctx x).state = .resumed → s.pc.runs = some x
  alloc : x ∈ s.ctxes

/-- The thread that was in `x` has exited and nothing has happened to `x` since. -/
structure Dead (x : Ptr) (s : St) : Prop where
  f : (s.ctx x).f = none
  state : (s.ctx x).state = .dormant
  me : s.me ≠ some x
  alloc : x ∈ s.ctxes

/-- The event does not reuse or release `x`, and is not an exit of its thread
that the scheduler takes for an interrupted system call. -/
def Spares (x : Ptr) (s : St) (e : Event) : Prop :=
  s.creates e ≠ some x ∧ (e = .call .gc → x ∉ s.gcReleased) ∧ (e = .exit true → s.pc ≠ .user x)

instance (x : Ptr) (s : St) (e : Event) : Decidable (Spares x s e) := by
  unfold Spares; infer_instance

/-- The micro-steps that `Spares x` leaves. -/
def Act.spares (x : Ptr) (a : Act) : Prop :=
  a ≠ .create x ∧ a ≠ .release x ∧ a ≠ .drop x ∧ a ≠ .quit x

theorem spares_of_may {x : Ptr} {s : St} {e : Event} {a : Act} (h : Spares x s e)
    (ha : May s e a) : a.spares x := by
  obtain ⟨-, h2, h3⟩ := h
  refine ⟨?_, ?_, ?_, ?_⟩ <;> rintro rfl
  · exact ha
  · exact h2 ha.1 ha.2
  · exact h2 ha.1 ha.2
  · exact h3 ha.1 ha.2

section
variable {D : Diag} {a : Act} {e : Event} {s s' : St} {x : Ptr} {n : Int}

/-- What a change of other things keeps. -/
theorem Alive.keep (h : Alive x n s) (hf : (s'.ctx x).f = (s.ctx x).f)
    (hid : (s'.ctx x).id = (s.ctx x).id) (hc : x ∈ s'.ctxes)
    (hst : (s'.ctx x).state.resumable ∨ ((s'.ctx x).state = (s.ctx x).state ∧
      (s.pc.runs = some x → s'.pc.runs = some x))) : Alive x n s' := by
  refine ⟨hf ▸ h.f, hid ▸ h.ident, ?_, fun hr => ?_, hc⟩
  · rcases hst with hst | ⟨hst, -⟩
    · exact (resumable_ne hst).1
    · rw [hst]; exact h.state
  · rcases hst with hst | ⟨hst, hp⟩
    · exact absurd hr (resumable_ne hst).2
    · exact hp (h.resumed (hst ▸ hr))

theorem Alive.queueNow (h : Alive x n s) {v : Int} {st : CoState} (hst : st.resumable) :
    Alive x n (s.queueNow x { s.ctx x with rc := v, state := st }) := by
  refine h.keep ?_ ?_ h.alloc (.inl ?_) <;>
    simp [St.queueNow, sleepqEnqueue, sleepqRemove, setCtx, hst]

/-- The thread stays alive, or the micro-step is its exit. -/
theorem alive_micro (h : Alive x n s) (ha : a.spares x) (hm : Micro D a s s') :
    Alive x n s' ∨ Dead x s' := by
  by_cases hx : a.subject = some x
  swap
  · obtain ⟨h1, h2, -, h4⟩ := micro_sameFor hm hx
    exact .inl (h.keep (by rw [h1]) (by rw [h1]) (h4 h.alloc) (.inr ⟨by rw [h1], h2.2⟩))
  cases hm with
  | env | gcList | sift => cases hx
  | append | unlink => exact .inl (h.keep rfl rfl h.alloc (.inr ⟨rfl, fun hr => hr⟩))
  | attr | rc | expire =>
    cases hx
    exact .inl (h.keep (by simp [setCtx]) (by simp [setCtx]) h.alloc
      (.inr ⟨by simp [setCtx], fun hr => hr⟩))
  | enterLib hpc hst =>
    cases hx
    exact .inl (h.keep (by simp [inLib, setCtx]) (by simp [inLib, setCtx]) h.alloc
      (.inl (by simpa [inLib, setCtx] using hst)))
  | yield hpc hk =>
    cases hx
    have hr := hk.state ▸ hk.real
    exact .inl (h.keep (by simp [parked, setCtx]) (by simp [parked, setCtx]) h.alloc
      (.inl (by simpa [parked, setCtx] using hr)))
  | sleepYield hpc hk =>
    cases hx
    have hr := hk.state ▸ hk.real
    exact .inl (h.keep (by simp [parked, asleep, setCtx]) (by simp [parked, asleep, setCtx]) h.alloc
      (.inl (by simpa [parked, asleep, setCtx] using hr)))
  | removeMe hpc | complete _ _ hpc =>
    exact .inl (h.keep rfl rfl h.alloc (.inr ⟨rfl, fun hr => by rw [hpc] at hr; exact hr⟩))
  | resume => cases hx; exact .inl (h.queueNow rfl)
  | interrupt => cases hx; exact .inl (h.queueNow rfl)
  | resumeFast =>
    cases hx
    exact .inl (h.keep (by simp [setCtx]) (by simp [setCtx]) h.alloc
      (.inl (by simp [setCtx, CoState.resumable])))
  | @wake _ q t rest =>
    cases hx
    have h1 : Alive x n (s.dequeue q x rest) :=
      h.keep rfl rfl h.alloc (.inr ⟨rfl, fun hr => hr⟩)
    unfold woken
    split
    · exact .inl h1
    · exact .inl (h1.queueNow rfl)
  | createFree | createNew => exact absurd (congrArg Act.create (Option.some.inj hx)) ha.1
  | die hpc hst =>
    cases hx
    exact .inr ⟨by simp [buried, setCtx, Ctx.cleared], by simp [buried, setCtx, Ctx.cleared],
      by simp, h.alloc⟩
  | quit => exact absurd (congrArg Act.quit (Option.some.inj hx)) ha.2.2.2
  | discard hpc hp hst =>
    -- a context that is not resumable is dormant or runs
    cases hx
    have h3 := h.state
    have h4 := h.resumed
    cases hx : (s.ctx x).state <;> simp_all [CoState.resumable, Pc.runs]
  | release => exact absurd (congrArg Act.release (Option.some.inj hx)) ha.2.1
  | drop => exact absurd (congrArg Act.drop (Option.some.inj hx)) ha.2.2.1
  | @enter _ s1 s' c poll hpc hp hst hs =>
    cases hx
    have h1 : (s1.ctx x).f = (s.ctx x).f ∧ (s1.ctx x).id = (s.ctx x).id := by
      cases hp <;> simp [popTmp, popRunq, clearExpire, setCtx]
    have h2 : (s'.ctx x).f = (s1.ctx x).f ∧ (s'.ctx x).id = (s1.ctx x).id ∧
        (s'.ctx x).state = .resumed := by
      rcases enter_cases hs with ⟨-, rfl⟩ | ⟨-, -, rfl⟩ <;> simp [setCtx]
    refine .inl ⟨by rw [h2.1, h1.1]; exact h.f, by rw [h2.2.1, h1.2]; exact h.ident,
      by simp [h2.2.2], fun _ => (enter_frame hs).2.2.2.1, ?_⟩
    rw [(enter_frame hs).1, hp.frame.2.1]
    exact h.alloc

/-- A dead context neither runs nor is written to. -/
theorem dead_micro (hI : Inv s) (h : Dead x s) (ha : a.spares x) (hm : Micro D a s s') :
    Dead x s' ∧ (s'.ctx x).rc = (s.ctx x).rc := by
  have hrun : s.pc.runs ≠ some x := fun hr => hI.run x hr h.state
  by_cases hx : a.subject = some x
  swap
  · obtain ⟨h1, -, h3, h4⟩ := micro_sameFor hm hx
    exact ⟨⟨by rw [h1]; exact h.f, by rw [h1]; exact h.state, fun hm => h.me (h3 hm),
      h4 h.alloc⟩, by rw [h1]⟩
  cases hm with
  | env | gcList | sift => cases hx
  | unlink => exact ⟨⟨h.f, h.state, h.me, h.alloc⟩, rfl⟩
  | attr =>
    cases hx
    exact ⟨⟨by simpa [setCtx] using h.f, by simpa [setCtx] using h.state, h.me, h.alloc⟩,
      by simp [setCtx]⟩
  | rc c v hc =>
    cases hx
    rcases hc with hc | hc | hc
    · exact absurd h.f hc
    · exact absurd h.state hc
    · exact absurd hc h.me
  | enterLib hpc =>
    cases hx
    exact absurd (by rcases hpc with hpc | ⟨k, hpc, -⟩ <;> rw [hpc] <;> rfl) hrun
  | expire hpc | append hpc | yield hpc | sleepYield hpc | removeMe hpc | complete _ _ hpc | die hpc
  | quit hpc =>
    cases hx
    exact absurd (by rw [hpc]; rfl) hrun
  | resume hne hf | interrupt hne hf | resumeFast hne hf => cases hx; exact absurd h.f hf
  | wake =>
    cases hx
    unfold woken
    rw [if_pos h.f]
    exact ⟨⟨h.f, h.state, h.me, h.alloc⟩, rfl⟩
  | createFree | createNew => exact absurd (congrArg Act.create (Option.some.inj hx)) ha.1
  | @discard _ s1 c poll hpc hp hst =>
    cases hx
    have h1 : (s1.ctx x).rc = (s.ctx x).rc := by
      cases hp <;> simp [popTmp, popRunq, clearExpire, setCtx]
    refine ⟨⟨by simp [buried, setCtx, Ctx.cleared], by simp [buried, setCtx, Ctx.cleared], ?_, ?_⟩,
      by simpa [buried, setCtx, Ctx.cleared] using h1⟩
    · exact fun hm => h.me (hp.frame.2.2.2.2.2 ▸ hm)
    · rw [show (s1.buried x).ctxes = s.ctxes from hp.frame.2.1]; exact h.alloc
  | release => exact absurd (congrArg Act.release (Option.some.inj hx)) ha.2.1
  | drop => exact absurd (congrArg Act.drop (Option.some.inj hx)) ha.2.2.1
  | enter hpc hp hst => cases hx; rw [h.state] at hst; cases hst

/-! ## Steps and runs -/

theorem dead_step (hI : Inv s) (h : Dead x s) (hc : Spares x s e) (hs : s.step D e = some s') :
    Dead x s' ∧ (s'.ctx x).rc = (s.ctx x).rc := by
  obtain ⟨s1, hb, hch⟩ := step_micro hI.base hs
  obtain ⟨h1, -, h3, h4⟩ := hb.sameFor hc.1
  have hd : Dead x s1 :=
    ⟨by rw [h1]; exact h.f, by rw [h1]; exact h.state, fun hm => h.me (h3 hm), h4 h.alloc⟩
  refine (hch.inv (I := fun u => Inv u ∧ Dead x u ∧ (u.ctx x).rc = (s.ctx x).rc) ?_
    ⟨inv_begin hI hb, hd, by rw [h1]⟩).2
  intro a u v ha hm hu
  obtain ⟨hd', hr⟩ := dead_micro hu.1 hu.2.1 (spares_of_may hc ha) hm
  exact ⟨inv_micro hu.1 hm, hd', hr.trans hu.2.2⟩

theorem alive_step (hI : Inv s) (h : Alive x n s) (hc : Spares x s e) (hs : s.step D e = some s') :
    Alive x n s' ∨ Dead x s' := by
  obtain ⟨s1, hb, hch⟩ := step_micro hI.base hs
  obtain ⟨h1, h2, -, h4⟩ := hb.sameFor hc.1
  have ha1 : Alive x n s1 :=
    h.keep (by rw [h1]) (by rw [h1]) (h4 h.alloc) (.inr ⟨by rw [h1], h2.2⟩)
  refine (hch.inv (I := fun u => Inv u ∧ (Alive x n u ∨ Dead x u)) ?_
    ⟨inv_begin hI hb, .inl ha1⟩).2
  intro a u v ha hm hu
  refine ⟨inv_micro hu.1 hm, ?_⟩
  rcases hu.2 with hu2 | hu2
  · exact alive_micro hu2 (spares_of_may hc ha) hm
  · exact .inr (dead_micro hu.1 hu2 (spares_of_may hc ha) hm).1

variable (D) (x) in
/-- The value of `co.rc` when the thread in `x` is finalized, if that happens
in the run of `es`. -/
def exitCode : St → List Event → Option Int
  | _, [] => none
  | s, e :: es =>
    match s.step D e with
    | none => none
    | some s' =>
      if (s.ctx x).f ≠ none ∧ (s'.ctx x).f = none then some (s'.ctx x).rc else exitCode s' es

theorem dead_exec : ∀ {es : List Event} {s s' : St}, Inv s → Dead x s →
    Along (St.step D) (Spares x) s es → exec (St.step D) s es = some s' →
    Dead x s' ∧ (s'.ctx x).rc = (s.ctx x).rc
  | [], s, s', _, h, _, hs => by cases hs; exact ⟨h, rfl⟩
  | e :: es, s, s', hI, h, hc, hs => by
    obtain ⟨u, hu, hr⟩ := exec_cons hs
    obtain ⟨h1, h2⟩ := dead_step hI h hc.1 hu
    obtain ⟨h3, h4⟩ := dead_exec (inv_step hI hu) h1 (hc.2 u hu) hr
    exact ⟨h3, h4.trans h2⟩

/-- At the end of a run the thread is alive and has no exit code, or it is dead
and its context has the code. -/
theorem alive_exec : ∀ {es : List Event} {s s' : St}, Inv s → Alive x n s →
    Along (St.step D) (Spares x) s es → exec (St.step D) s es = some s' →
    (Alive x n s' ∧ exitCode D x s es = none) ∨
      (Dead x s' ∧ exitCode D x s es = some (s'.ctx x).rc)
  | [], s, s', _, h, _, hs => by cases hs; exact .inl ⟨h, rfl⟩
  | e :: es, s, s', hI, h, hc, hs => by
    obtain ⟨u, hu, hr⟩ := exec_cons hs
    simp only [exitCode, hu]
    rcases alive_step hI h hc.1 hu with h1 | h1
    · rw [if_neg fun hn => h1.f hn.2]
      exact alive_exec (inv_step hI hu) h1 (hc.2 u hu) hr
    · obtain ⟨h2, h3⟩ := dead_exec (inv_step hI hu) h1 (hc.2 u hu) hr
      rw [if_pos ⟨h.f, h1.f⟩, h3]
      exact .inr ⟨h2, rfl⟩

end

end Mnthr

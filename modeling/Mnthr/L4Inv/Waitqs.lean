import Mnthr.L4Inv.Threads

/-!
# Wait queues and their back pointers

`WaitQs.Ok`: a context is in queue `q`, once, exactly when its `hosting_waitq`
is `q`. The four operations keep it, provided that a thread takes itself off
the queue it is in (`Ok.takenOff`); that is the equality the asserts in the
source are written for.

`WInv` carries it through runs. A timed wait takes its caller off the queue of
the context it remembers when the id it remembers is still there, so the
invariant ties the two: a remembered id that is alive names the queue the
thread is in (`timed`). It breaks when a thread is created in a context with
an id that some waiter remembers for it; `NoStaleId` excludes that.
-/
namespace Mnthr
open St

namespace WaitQs

structure Ok (w : WaitQs) : Prop where
  mem : ∀ t q, t ∈ w.queue q ↔ w.hosting t = some q
  nodup : ∀ q, (w.queue q).Nodup

namespace Ok
variable {w : WaitQs} {c t : Ptr} {q : Waitq}

/-- Out of the queue it is in. -/
theorem takenOff (h : w.Ok) (hq : w.hosting c = some q) :
    ((w.unlink q c).setHosting c none).Ok := by
  have hc : c ∈ w.queue q := (h.mem c q).2 hq
  constructor
  · intro t q'
    by_cases htc : t = c
    · subst htc
      by_cases hqq : q' = q
      · subst hqq
        simpa [unlink, setQueue, setHosting] using (h.nodup q').not_mem_erase
      · have : t ∉ w.queue q' := fun hm => hqq (by
          have := (h.mem t q').1 hm
          rw [hq] at this
          exact (Option.some.inj this).symm)
        simpa [unlink, setQueue, setHosting, hqq] using this
    · by_cases hqq : q' = q
      · subst hqq
        simpa [unlink, setQueue, setHosting, htc, List.mem_erase_of_ne htc] using h.mem t q'
      · simpa [unlink, setQueue, setHosting, hqq, htc] using h.mem t q'
  · intro q'
    by_cases hqq : q' = q
    · subst hqq
      simpa [unlink, setQueue, setHosting] using (h.nodup q').erase c
    · simpa [unlink, setQueue, setHosting, hqq] using h.nodup q'

/-- A context that is in no queue is not taken off any. -/
theorem takenOff_none (h : w.Ok) (hc : w.hosting c = none) (q : Waitq) :
    (w.unlink q c).setHosting c none = w := by
  have hm : c ∉ w.queue q := fun hm => by
    have := (h.mem c q).1 hm
    rw [hc] at this
    cases this
  rw [unlink, List.erase_of_not_mem hm, setQueue, Function.update_eq_self, setHosting, ← hc,
    Function.update_eq_self]

theorem leave (h : w.Ok) (c : Ptr) : ((w.leave c).setHosting c none).Ok := by
  unfold WaitQs.leave
  split
  · rename_i q hq
    exact h.takenOff hq
  · rename_i hq
    have : w.setHosting c none = w := by
      simp only [setHosting, ← hq, Function.update_eq_self]
    rw [this]; exact h

/-- At the end of a queue, for a context that is in none. -/
theorem enqueue (h : w.Ok) (hc : w.hosting c = none) (q : Waitq) :
    ((w.setQueue q (w.queue q ++ [c])).setHosting c (some q)).Ok := by
  have hout : ∀ q', c ∉ w.queue q' := fun q' hm => by
    have := (h.mem c q').1 hm
    rw [hc] at this; cases this
  constructor
  · intro t q'
    by_cases htc : t = c
    · subst htc
      by_cases hqq : q' = q
      · subst hqq; simp [setQueue, setHosting]
      · simpa [setQueue, setHosting, hqq, hout q'] using Ne.symm hqq
    · by_cases hqq : q' = q
      · subst hqq
        simpa [setQueue, setHosting, htc] using h.mem t q'
      · simpa [setQueue, setHosting, hqq, htc] using h.mem t q'
  · intro q'
    by_cases hqq : q' = q
    · subst hqq
      have : (w.queue q' ++ [c]).Nodup :=
        List.nodup_append.2 ⟨h.nodup q', by simp, by
          intro a ha b hb
          rw [List.mem_singleton] at hb
          intro heq
          subst heq
          exact hout q' (hb ▸ ha)⟩
      simpa [setQueue, setHosting] using this
    · simpa [setQueue, setHosting, hqq] using h.nodup q'

theorem append (h : w.Ok) (q : Waitq) (c : Ptr) : (w.append q c).Ok := by
  have h1 := (h.leave c).enqueue (c := c) (by simp [setHosting]) q
  have he : (w.append q c) = ((((w.leave c).setHosting c none).setQueue q
      (((w.leave c).setHosting c none).queue q ++ [c])).setHosting c (some q)) := by
    simp [WaitQs.append, setHosting, setQueue]
  rw [he]; exact h1

/-- The head of a queue is taken off. -/
theorem dequeue (h : w.Ok) {rest : List Ptr} (hq : w.queue q = t :: rest) :
    ((w.setQueue q rest).setHosting t none).Ok := by
  have hh : w.hosting t = some q := (h.mem t q).1 (by simp [hq])
  have := h.takenOff hh
  have he : (w.queue q).erase t = rest := by rw [hq]; simp
  rwa [unlink, he] at this

end Ok
end WaitQs

/-- Every micro-step keeps the queues, provided that a thread that is back in a
timed wait is in the queue of its target, if in any. -/
theorem waitqsOk_micro {D : Diag} {a : Act} {s s' : St} (hok : s.wq.Ok)
    (hback : ∀ t k x n q, s.pc = .post t k → k.target = some (x, n) → s.wq.hosting t = some q →
      q = .ctx x) (hm : Micro D a s s') : s'.wq.Ok := by
  cases hm with
  | append hpc q => exact hok.append q _
  | @removeMe _ c x n k hpc ht hx =>
    show (((s.wq.unlink (.ctx x) c).setHosting c none)).Ok
    cases hh : s.wq.hosting c with
    | none => rw [hok.takenOff_none hh]; exact hok
    | some q =>
      cases hback c k x n q hpc ht hh
      exact hok.takenOff hh
  | wake hq => unfold woken; split <;> exact hok.dequeue hq
  | unlink => exact hok.leave _
  | discard hpc hp => cases hp <;> exact hok
  | enter hpc hp hst hs =>
    rcases enter_cases hs with ⟨-, rfl⟩ | ⟨-, -, rfl⟩ <;> cases hp <;> exact hok
  | sift hs =>
    obtain ⟨-, -, -, rfl⟩ := sift_cases hs
    exact hok
  | _ => exact hok

/-! ## Along runs -/

/-- Thread `t` is in a timed wait on context `x` and remembers id `n` for it. -/
def St.remembers (s : St) (t x : Ptr) (n : Int) : Prop :=
  ((s.ctx t).f ≠ none ∧ (s.ctx t).uc.target = some (x, n)) ∨
    ∃ k, s.pc = .post t k ∧ k.target = some (x, n)

structure WInv (s : St) : Prop where
  ok : s.wq.Ok
  asserts : s.waitqOk = true
  timed : ∀ t x n, s.remembers t x n → (s.ctx x).id = n → (s.ctx x).f ≠ none →
    s.wq.hosting t = some (.ctx x)

/-- No thread is created with the id that a waiter on its context remembers. -/
def NoStaleId (s : St) (e : Event) : Prop :=
  ∀ c, s.creates e = some c → ∀ t, ¬ s.remembers t c s.coId

theorem Call.queue_of_target {k : Call} {x : Ptr} {n : Int} (h : k.target = some (x, n)) :
    k.queue = some (.ctx x) := by
  cases k <;> simp_all [Call.target, Call.queue]

theorem winv_init (objs : Objs) (now : Nat) : WInv (St.init objs now) := by
  refine ⟨⟨?_, ?_⟩, rfl, ?_⟩
  · simp [St.init, WaitQs.empty]
  · simp [St.init, WaitQs.empty]
  · simp [St.init, St.remembers, Ctx.init]

namespace WInv
variable {D : Diag} {s s' : St} {c t : Ptr} {q : Waitq}

/-- Who remembers what, and which ids are alive, decide `timed`. -/
theorem congr (h : WInv s) (hw : s'.wq = s.wq) (ho : s'.waitqOk = s.waitqOk)
    (hr : ∀ t x n, s'.remembers t x n → s.remembers t x n)
    (hl : ∀ x n, (s'.ctx x).id = n → (s'.ctx x).f ≠ none → (s.ctx x).id = n ∧ (s.ctx x).f ≠ none) :
    WInv s' := by
  refine ⟨hw ▸ h.ok, ho ▸ h.asserts, fun t x n hm hi hf => ?_⟩
  obtain ⟨h1, h2⟩ := hl x n hi hf
  rw [hw]; exact h.timed t x n (hr t x n hm) h1 h2

/-- A change of one context that keeps its id, its thread and its saved context. -/
theorem setCtx (h : WInv s) {x : Ctx} (hid : x.id = (s.ctx c).id) (hf : x.f = (s.ctx c).f)
    (hu : x.uc = (s.ctx c).uc) : WInv (s.setCtx c x) := by
  refine h.congr rfl rfl ?_ ?_
  · intro t y n hm
    simp only [St.remembers, St.setCtx, Function.update_apply] at hm ⊢
    grind
  · intro y n hi hy
    simp only [St.setCtx, Function.update_apply] at hi hy
    grind

theorem queueNow (h : WInv s) {v : Int} {st : CoState} :
    WInv (s.queueNow c { s.ctx c with rc := v, state := st }) := by
  have := h.setCtx (c := c)
    (x := { s.ctx c with rc := v, state := st, expireTicks := SLEEP_RESUME_NOW }) rfl rfl rfl
  exact { this with }

/-- The running thread remembers nothing, unless it is back in a timed wait. -/
theorem remembers_running {x : Ptr} {n : Int} (hI : Inv s) (hr : s.pc.runs = some t)
    (h : s.remembers t x n) : ∃ k, s.pc = .post t k ∧ k.target = some (x, n) := by
  rcases h with ⟨-, hu⟩ | h
  · rcases hI.ucRun t hr with h0 | h0 <;> rw [h0] at hu <;> cases hu
  · exact h

/-- The scheduler takes over, and `c` may have saved itself as `k`. -/
theorem parked (h : WInv s) {k : Call} (eintr : Bool)
    (hk : ∀ x n, k.target = some (x, n) → s.wq.hosting c = some (.ctx x)) :
    WInv (s.parked c k eintr) := by
  refine ⟨h.ok, h.asserts, fun t x n hm hi hf => ?_⟩
  simp only [St.remembers, St.parked, St.setCtx, Function.update_apply] at hm hi hf
  by_cases htc : t = c
  · subst htc
    exact hk x n (by grind)
  · exact h.timed t x n (.inl (by grind)) (by grind) (by grind)

theorem asleep (h : WInv s) (d : Nat) : WInv (s.asleep c d) :=
  { h.setCtx (c := c) (x := { s.ctx c with expireTicks := d }) rfl rfl rfl with }

/-- Taking threads off the queue of a context without a thread, or off a
condition variable, concerns no id that is alive. -/
theorem wake (h : WInv s) {rest : List Ptr} (hq : s.wq.queue q = t :: rest)
    (hx : ∀ x, q = .ctx x → (s.ctx x).f = none) : WInv (s.woken q t rest) := by
  have hh : s.wq.hosting t = some q := (h.ok.mem t q).1 (by simp [hq])
  have h1 : WInv (s.dequeue q t rest) := by
    refine ⟨h.ok.dequeue hq, ?_, fun u x n hm hi hf => ?_⟩
    · simp [St.dequeue, h.asserts, hh]
    · have hu := h.timed u x n hm hi hf
      by_cases hut : u = t
      · subst hut
        rw [hh] at hu
        exact absurd (hx x (Option.some.inj hu)) hf
      · simpa [St.dequeue, WaitQs.setQueue, WaitQs.setHosting, hut] using hu
  unfold woken
  split
  · exact h1
  · exact h1.queueNow

theorem cleared (h : WInv s) (c : Ptr) : WInv (s.setCtx c (s.ctx c).cleared) := by
  refine h.congr rfl rfl ?_ ?_
  · intro t x n hm
    simp only [St.remembers, St.setCtx, Ctx.cleared, Function.update_apply] at hm ⊢
    grind
  · intro x n hi hf
    simp only [St.setCtx, Ctx.cleared, Function.update_apply] at hi hf
    grind

theorem toSched (h : WInv s) (o : Option Ptr) : WInv { s with me := o, pc := .sched } := by
  refine h.congr rfl rfl ?_ fun x n hi hf => ⟨hi, hf⟩
  rintro t x n (hm | ⟨k, hk, -⟩)
  · exact .inl hm
  · cases hk

theorem popped {poll : Bool} {s1 : St} (h : WInv s) (hp : Picked s c poll s1) : WInv s1 := by
  have := h.setCtx (c := c) (x := { s.ctx c with expireTicks := SLEEP_UNDEFINED }) rfl rfl rfl
  cases hp with
  | tmp | runq => exact { this with }
  | poll => exact h

/-- A thread that is switched to remembers what its saved context did. -/
theorem enter (h : WInv s) (hf : (s.ctx c).f ≠ none) (hs : s.enter c = some s') : WInv s' := by
  obtain ⟨hwq, hok, hrem, hlive⟩ : s'.wq = s.wq ∧ s'.waitqOk = s.waitqOk ∧
      (∀ t x n, s'.remembers t x n → s.remembers t x n) ∧
      ∀ x, (s'.ctx x).id = (s.ctx x).id ∧ (s'.ctx x).f = (s.ctx x).f := by
    rcases enter_cases hs with ⟨-, rfl⟩ | ⟨-, -, rfl⟩
    all_goals
      refine ⟨rfl, rfl, ?_, ?_⟩
      all_goals simp only [St.remembers, St.setCtx, Function.update_apply]
      all_goals grind [Call.target]
  exact h.congr hwq hok hrem fun x n hi hx =>
    ⟨(hlive x).1 ▸ hi, (hlive x).2 ▸ hx⟩

/-- A thread created with an id that nobody remembers for its context. -/
theorem create (h : WInv s) (hn : ∀ t, ¬ s.remembers t c s.coId)
    (hm : Micro D (.create c) s s') : WInv s' := by
  have key : ∀ x : Ctx, x.id = s.coId → x.uc = .start → ∀ u : St,
      u.ctx = Function.update s.ctx c x → u.wq = s.wq → u.waitqOk = s.waitqOk → u.pc = s.pc →
      WInv u := by
    intro x hid huc u hu hw ho hp
    refine ⟨hw ▸ h.ok, ho ▸ h.asserts, fun t y n hr hi hf => ?_⟩
    rw [hw]
    have hr' : s.remembers t y n ∧ y ≠ c := by
      simp only [St.remembers, hu, hp, Function.update_apply] at hr hi
      have := hn t
      simp only [St.remembers] at this ⊢
      grind [Call.target]
    refine h.timed t y n hr'.1 ?_ ?_
    · rwa [hu, Function.update_of_ne hr'.2] at hi
    · rwa [hu, Function.update_of_ne hr'.2] at hf
  cases hm with
  | createFree => exact key _ rfl rfl _ rfl rfl rfl rfl
  | createNew => exact key _ rfl rfl _ rfl rfl rfl rfl

end WInv

/-- Every micro-step but the creation of a thread keeps `WInv`. -/
theorem winv_micro {D : Diag} {a : Act} {s s' : St} (hI : Inv s) (h : WInv s)
    (ha : ∀ c, a ≠ .create c) (hm : Micro D a s s') : WInv s' := by
  cases hm with
  | env => exact { h with }
  | attr c | rc c | expire _ c => exact h.setCtx rfl rfl rfl
  | @enterLib _ c st hpc hst =>
    have h1 := h.setCtx (c := c) (x := { s.ctx c with state := st }) rfl rfl rfl
    refine ⟨h1.ok, h1.asserts, fun t x n hm => h1.timed t x n ?_⟩
    rcases hm with hm | ⟨k, hk, -⟩
    · exact .inl hm
    · cases hk
  | @append _ c hpc q =>
    refine ⟨h.ok.append q c, h.asserts, fun t x n hm hi hf => ?_⟩
    have htc : t ≠ c := by
      intro heq
      subst heq
      obtain ⟨k, hk, -⟩ := WInv.remembers_running (s := s) hI (by rw [hpc]; rfl) hm
      rw [hpc] at hk; cases hk
    have := h.timed t x n hm hi hf
    unfold appended WaitQs.append WaitQs.leave
    split <;> simpa [WaitQs.unlink, WaitQs.setQueue, WaitQs.setHosting, htc] using this
  | yield hpc hk ht =>
    exact h.parked _ (by simp [ht])
  | @sleepYield _ c k dormant hpc hk ht d eintr =>
    refine (h.asleep d).parked eintr ?_
    intro x n hx
    exact (hk.queued _ (Call.queue_of_target hx)).1
  | @removeMe _ c x n k hpc ht hx =>
    -- the id is alive, so the queue is the one the thread is in
    have hf : (s.ctx x).f ≠ none := hI.live x (not_or.1 hx).2
    have hh := h.timed c x n (.inr ⟨k, hpc, ht⟩) (not_not.1 (not_or.1 hx).1) hf
    refine ⟨h.ok.takenOff hh, by simp [St.takenOff, h.asserts, hh], fun t y m hm hi hy => ?_⟩
    have htc : t ≠ c := by
      intro heq
      subst heq
      rcases hm with ⟨-, hu⟩ | ⟨k', hk', -⟩
      · change (s.ctx t).uc.target = _ at hu
        rcases hI.ucRun t (by rw [hpc]; rfl) with h0 | h0 <;> (rw [h0] at hu; cases hu)
      · cases hk'
    have hm' : s.remembers t y m := by
      rcases hm with hm | ⟨k', hk', -⟩
      · exact .inl hm
      · cases hk'
    simpa [St.takenOff, WaitQs.unlink, WaitQs.setQueue, WaitQs.setHosting, htc] using
      h.timed t y m hm' hi hy
  | complete sq o hpc =>
    refine h.congr rfl rfl ?_ fun x n hi hf => ⟨hi, hf⟩
    rintro t x n (hm | ⟨k', hk', -⟩)
    · exact .inl hm
    · cases hk'
  | resume => exact h.queueNow
  | @resumeFast _ c =>
    exact { h.setCtx (c := c) (x := { s.ctx c with
      state := .setResume, expireTicks := SLEEP_RESUME_NOW }) rfl rfl rfl with }
  | interrupt => exact h.queueNow
  | wake hq hne hx => exact h.wake hq hx
  | createFree => exact absurd rfl (ha _)
  | createNew => exact absurd rfl (ha _)
  | @die _ c => exact { (h.toSched none).cleared c with }
  | quit => exact h.toSched s.me
  | discard hpc hp => exact { (h.popped hp).cleared _ with }
  | @release _ c => exact h.cleared c
  | @unlink _ c hf =>
    refine ⟨h.ok.leave c, h.asserts, fun t x n hm hi hx => ?_⟩
    have htc : t ≠ c := by
      intro heq
      subst heq
      rcases hm with ⟨hf', -⟩ | ⟨k, hk, -⟩
      · exact hf' hf
      · exact hI.live t (hI.run t (by rw [show s.pc = .post t k from hk]; rfl)) hf
    have := h.timed t x n hm hi hx
    unfold WaitQs.leave
    split <;> simpa [WaitQs.unlink, WaitQs.setQueue, WaitQs.setHosting, htc] using this
  | @drop _ c => exact { h.setCtx (c := c) (x := { s.ctx c with rc := 0 }) rfl rfl rfl with }
  | gcList => exact { h with }
  | @enter _ s1 s' c poll hpc hp hst hs =>
    have hf : (s1.ctx c).f ≠ none := by
      have := hI.live c (fun hd => by rw [hd] at hst; cases hst)
      cases hp <;> simpa [popTmp, popRunq, clearExpire, St.setCtx] using this
    exact (h.popped hp).enter hf hs
  | sift hs =>
    obtain ⟨-, -, -, rfl⟩ := sift_cases hs
    exact { h with }

theorem winv_step {D : Diag} {e : Event} {s s' : St} (hI : Inv s) (h : WInv s)
    (hc : NoStaleId s e) (hs : s.step D e = some s') : WInv s' := by
  obtain ⟨s1, hb, hch⟩ := step_micro hI.base hs
  have h1 : Inv s1 ∧ WInv s1 := by
    refine ⟨inv_begin hI hb, ?_⟩
    cases hb with
    | same => exact h
    | create hcr hm => exact h.create (hc _ hcr) hm
  refine (hch.inv (I := fun u => Inv u ∧ WInv u) ?_ h1).2
  intro a u v ha hm hx
  obtain ⟨hu, hw⟩ := hx
  refine ⟨inv_micro hu hm, winv_micro hu hw ?_ hm⟩
  intro c heq
  subst heq
  exact ha

end Mnthr

import Mnthr.L3Micro.Yields

/-!
# What holds of the threads in every run

`Inv` is kept by every event, whatever the threads, the clock and the pollers
do: no condition on the run is needed. It says which thread runs and in what
state, that a context with a state has a thread, and that a thread whose state
still names the wait it went to sleep in is a member of that wait queue
(`parked`); a thread that was interrupted or resumed since has another state.
-/
namespace Mnthr
open St

structure Inv (s : St) : Prop where
  me : ∀ c, s.pc.runs = some c → s.me = some c
  resumed : ∀ c, s.pc = .user c ∨ (∃ k, s.pc = .post c k) → (s.ctx c).state = .resumed
  run : ∀ c, s.pc.runs = some c → (s.ctx c).state ≠ .dormant
  live : ∀ c, (s.ctx c).state ≠ .dormant → (s.ctx c).f ≠ none
  ucRun : ∀ c, s.pc.runs = some c → (s.ctx c).uc = .gone ∨ (s.ctx c).uc = .start
  parked : ∀ t q, (s.ctx t).uc.queue = some q → (s.ctx t).state = (s.ctx t).uc.coState →
    t ∈ s.wq.queue q
  fresh : ∀ c, s.brk ≤ c → (s.ctx c).f = none
  nodup : s.ctxes.Nodup
  alloc : ∀ c ∈ s.ctxes, c < s.brk
  free : ∀ c, c ∈ s.freeList ∨ c ∈ s.gcRest → c < s.brk

theorem Inv.base {s : St} (h : Inv s) : Base s := ⟨h.me, h.resumed⟩

theorem inv_init (objs : Objs) (now : Nat) : Inv (St.init objs now) := by
  constructor <;> simp [St.init, Pc.runs, Ctx.init, Call.queue]

namespace Inv
variable {D : Diag} {s s' : St} {c t : Ptr} {q : Waitq}

/-- `Inv` reads four fields of a context; a change of the others is no change. -/
theorem congr (h : Inv s) (hc : ∀ t, (s'.ctx t).state = (s.ctx t).state ∧
      (s'.ctx t).f = (s.ctx t).f ∧ (s'.ctx t).uc = (s.ctx t).uc)
    (hme : s'.me = s.me) (hpc : s'.pc = s.pc) (hq : s'.wq.queue = s.wq.queue)
    (hb : s'.brk = s.brk) (hx : s'.ctxes = s.ctxes)
    (hf : ∀ c, c ∈ s'.freeList ∨ c ∈ s'.gcRest → c ∈ s.freeList ∨ c ∈ s.gcRest) : Inv s' := by
  obtain ⟨h1, h2, h3, h4, h5, h6, h7, h8, h9, h10⟩ := h
  constructor
  · rwa [hpc, hme]
  · intro c hr; rw [(hc c).1]; exact h2 c (hpc ▸ hr)
  · intro c hr; rw [(hc c).1]; exact h3 c (hpc ▸ hr)
  · intro c hr; rw [(hc c).2.1]; exact h4 c ((hc c).1 ▸ hr)
  · intro c hr; rw [(hc c).2.2]; exact h5 c (hpc ▸ hr)
  · intro t q hk hst
    rw [(hc t).2.2] at hk hst
    rw [hq]; exact h6 t q hk ((hc t).1 ▸ hst)
  · intro c hr; rw [(hc c).2.1]; exact h7 c (hb ▸ hr)
  · rwa [hx]
  · rwa [hx, hb]
  · intro c hm; rw [hb]; exact h10 c (hf c hm)

/-- A thread is parked in a state of its own for each kind of wait, none of
which is given to it by anybody else. -/
theorem coState_of_queue {k : Call} (h : k.queue = some q) :
    k.coState ≠ .setResume ∧ k.coState ≠ .setInterrupt ∧ k.coState ≠ .resumed ∧
      k.coState ≠ .dormant := by
  cases k <;> simp_all [Call.queue, Call.coState]

/-- A context with a thread, other than the running one, is set for resume or
interrupt. -/
theorem queueNow (h : Inv s) (hne : s.me ≠ some c) (hf : (s.ctx c).f ≠ none) {v : Int}
    {st : CoState} (hst : st = .setResume ∨ st = .setInterrupt) :
    Inv (s.queueNow c { s.ctx c with rc := v, state := st }) := by
  have hrun : s.pc.runs ≠ some c := fun hr => hne (h.me c hr)
  have hco := @coState_of_queue
  obtain ⟨h1, h2, h3, h4, h5, h6, h7, h8, h9, h10⟩ := h
  constructor
  all_goals simp only [St.queueNow, sleepqEnqueue, sleepqRemove, setCtx, Function.update_apply]
  all_goals grind [Pc.runs]

/-- Only the thread that leaves a queue may lose its place there, and only if
it is not parked. -/
theorem wq (h : Inv s) {w : WaitQs} (ok : Bool)
    (hw : ∀ t q, t ∈ s.wq.queue q → t ∈ w.queue q ∨
      ((s.ctx t).uc.queue = some q → (s.ctx t).state ≠ (s.ctx t).uc.coState)) :
    Inv { s with wq := w, waitqOk := ok } := by
  refine { h with parked := fun t q hk hst => ?_ }
  rcases hw t q (h.parked t q hk hst) with hm | hn
  · exact hm
  · exact absurd hst (hn hk)

/-- The running thread is parked nowhere. -/
theorem running_unparked (h : Inv s) (hr : s.pc.runs = some c) : (s.ctx c).uc.queue = none := by
  rcases h.ucRun c hr with hu | hu <;> simp [hu, Call.queue]

theorem mem_leave {w : WaitQs} (h : t ∈ w.queue q) (hne : t ≠ c) : t ∈ (w.leave c).queue q := by
  unfold WaitQs.leave
  split
  · rename_i q' _
    by_cases hq : q = q'
    · subst hq
      simpa [WaitQs.unlink, WaitQs.setQueue] using (List.mem_erase_of_ne hne).2 h
    · simpa [WaitQs.unlink, WaitQs.setQueue, hq] using h
  · exact h

theorem mem_append {w : WaitQs} {q' : Waitq} (h : t ∈ w.queue q) (hne : t ≠ c) :
    t ∈ (w.append q' c).queue q := by
  have := mem_leave (c := c) h hne
  by_cases hq : q = q'
  · subst hq
    simp [WaitQs.append, WaitQs.setHosting, WaitQs.setQueue, this]
  · simpa [WaitQs.append, WaitQs.setHosting, WaitQs.setQueue, hq] using this

theorem append (h : Inv s) (hpc : s.pc = .lib c) : Inv (s.appended q c) := by
  refine h.wq s.waitqOk fun t q' hm => ?_
  by_cases htc : t = c
  · subst htc
    exact .inr fun hk => by rw [h.running_unparked (by rw [hpc]; rfl)] at hk; cases hk
  · exact .inl (mem_append hm htc)

theorem takenOff (h : Inv s) {k : Call} (hpc : s.pc = .post c k) :
    Inv { s.takenOff q c with pc := .user c } := by
  have hrun : s.pc.runs = some c := by rw [hpc]; rfl
  have h1 : Inv (s.takenOff q c) := by
    refine h.wq _ fun t q' hm => ?_
    by_cases htc : t = c
    · subst htc
      exact .inr fun hk => by rw [h.running_unparked hrun] at hk; cases hk
    · refine .inl ?_
      by_cases hq : q' = q
      · subst hq
        simpa [WaitQs.unlink, WaitQs.setQueue, WaitQs.setHosting] using
          (List.mem_erase_of_ne htc).2 hm
      · simpa [WaitQs.unlink, WaitQs.setQueue, WaitQs.setHosting, hq] using hm
  refine { h1 with me := ?_, resumed := ?_, run := ?_, ucRun := ?_ }
  all_goals grind [Inv, Pc.runs, St.takenOff]

theorem wake (h : Inv s) {rest : List Ptr} (hq : s.wq.queue q = t :: rest) (hne : s.me ≠ some t) :
    Inv (s.woken q t rest) := by
  have hco := @coState_of_queue
  have hrun : s.pc.runs ≠ some t := fun hr => hne (h.me t hr)
  unfold woken
  split
  · rename_i hf
    -- a context without a thread is dormant, so it is not parked
    have hd : (s.ctx t).state = .dormant := by
      by_contra hd; exact h.live t hd hf
    refine h.wq _ fun u q' hm => ?_
    by_cases hut : u = t
    · subst hut
      exact .inr fun hk => by rw [hd]; exact (hco hk).2.2.2.symm
    · refine .inl ?_
      by_cases hqq : q' = q
      · subst hqq
        simpa [WaitQs.setQueue, WaitQs.setHosting, hut, hq] using hm
      · simpa [WaitQs.setQueue, WaitQs.setHosting, hqq] using hm
  · rename_i hf
    obtain ⟨h1, h2, h3, h4, h5, h6, h7, h8, h9, h10⟩ := h
    constructor
    all_goals simp only [St.queueNow, sleepqEnqueue, sleepqRemove, setCtx, dequeue,
      WaitQs.setQueue, WaitQs.setHosting, Function.update_apply]
    all_goals grind [Pc.runs]

/-- The running thread on its way to a yield, and at it. -/
theorem enterLib (h : Inv s) (hpc : s.pc = .user c ∨ ∃ k, s.pc = .post c k) {st : CoState}
    (hst : st.resumable) : Inv (s.inLib c st) := by
  have hrun : s.pc.runs = some c := by rcases hpc with h | ⟨k, h⟩ <;> rw [h] <;> rfl
  have hun := h.running_unparked hrun
  have hd : st ≠ .dormant := by intro heq; subst heq; cases hst
  obtain ⟨h1, h2, h3, h4, h5, h6, h7, h8, h9, h10⟩ := h
  constructor
  all_goals simp only [inLib, setCtx, Function.update_apply]
  all_goals grind [Pc.runs]

theorem yield (h : Inv s) {k : Call} (hk : Suspends s c k) (eintr : Bool) :
    Inv (s.parked c k eintr) := by
  obtain ⟨hr, hs, hqd⟩ := hk
  obtain ⟨h1, h2, h3, h4, h5, h6, h7, h8, h9, h10⟩ := h
  constructor
  all_goals simp only [St.parked, setCtx, Function.update_apply]
  all_goals grind [Pc.runs]

theorem asleep (h : Inv s) (d : Nat) : Inv (s.asleep c d) := by
  refine h.congr (fun t => ?_) rfl rfl rfl rfl rfl fun c hc => hc
  by_cases htc : t = c
  · subst htc; simp [St.asleep, setCtx]
  · simp [St.asleep, setCtx, htc]

/-- A cleared context is dormant and has no thread. -/
theorem cleared (h : Inv s) (hr : s.pc.runs ≠ some c) : Inv (s.setCtx c (s.ctx c).cleared) := by
  have hco := @coState_of_queue
  obtain ⟨h1, h2, h3, h4, h5, h6, h7, h8, h9, h10⟩ := h
  constructor
  all_goals simp only [setCtx, Ctx.cleared, Function.update_apply]
  all_goals grind [Pc.runs]

theorem buried (h : Inv s) (hr : s.pc.runs ≠ some c) (hc : c < s.brk) : Inv (s.buried c) := by
  have := h.cleared hr
  refine { this with free := fun x hx => ?_ }
  simp only [St.buried, List.mem_append, List.mem_singleton] at hx
  rcases hx with (hx | rfl) | hx
  · exact h.free x (.inl hx)
  · exact hc
  · exact h.free x (.inr hx)

/-- The scheduler is in nobody's name: `me` may be anything. -/
theorem toSched (h : Inv s) (o : Option Ptr) : Inv { s with me := o, pc := .sched } := by
  refine { h with me := ?_, resumed := ?_, run := ?_, ucRun := ?_ } <;> simp [Pc.runs]

theorem popped {poll : Bool} {s1 : St} (h : Inv s) (hp : Picked s c poll s1) : Inv s1 := by
  cases hp with
  | tmp | runq =>
    refine h.congr (fun t => ?_) rfl rfl rfl rfl rfl fun c hc => hc
    by_cases htc : t = c
    · subst htc; simp [popTmp, popRunq, clearExpire, setCtx]
    · simp [popTmp, popRunq, clearExpire, setCtx, htc]
  | poll => exact h

theorem enter (h : Inv s) (hd : (s.ctx c).state.resumable) (hs : s.enter c = some s') : Inv s' := by
  have hco := @coState_of_queue
  have hf : (s.ctx c).f ≠ none := h.live c (by intro hd'; rw [hd'] at hd; cases hd)
  obtain ⟨h1, h2, h3, h4, h5, h6, h7, h8, h9, h10⟩ := h
  rcases enter_cases hs with ⟨hu, rfl⟩ | ⟨-, -, rfl⟩
  all_goals
    constructor
    all_goals simp only [setCtx, Function.update_apply]
    all_goals grind [Pc.runs, Call.queue]

theorem createFree (h : Inv s) (hc : s.firstFree = some c) (f : Nat) (n : Int) :
    Inv { s.setCtx c { s.ctx c with rc := 0, id := s.coId, f := some f, uc := .start } with
      freeList := s.freeList.erase c, coId := n } := by
  have hmem : c ∈ s.freeList := List.mem_of_find?_eq_some hc
  have hlt := h.free c (.inl hmem)
  have hsub : ∀ x, x ∈ s.freeList.erase c → x ∈ s.freeList := fun x => List.mem_of_mem_erase
  obtain ⟨h1, h2, h3, h4, h5, h6, h7, h8, h9, h10⟩ := h
  constructor
  all_goals simp only [setCtx, Function.update_apply]
  all_goals grind [Call.queue]

theorem createNew (h : Inv s) (f : Nat) (n : Int) :
    Inv { s.setCtx s.brk { Ctx.init with id := s.coId, f := some f, uc := .start } with
      ctxes := s.ctxes ++ [s.brk], brk := s.brk + 1, coId := n } := by
  have hd : (s.ctx s.brk).state = .dormant := by
    by_contra hd; exact h.live _ hd (h.fresh _ (Nat.le_refl _))
  obtain ⟨h1, h2, h3, h4, h5, h6, h7, h8, h9, h10⟩ := h
  constructor
  all_goals simp only [setCtx, Ctx.init, Function.update_apply]
  all_goals grind [Call.queue]

end Inv

/-- Every micro-step keeps `Inv`. -/
theorem inv_micro {D : Diag} {a : Act} {s s' : St} (h : Inv s) (hm : Micro D a s s') : Inv s' := by
  cases hm with
  | env => exact { h with }
  | attr c | rc c | expire _ c =>
    refine h.congr (fun t => ?_) rfl rfl rfl rfl rfl fun c hc => hc
    simp only [setCtx, Function.update_apply]
    split <;> simp_all
  | enterLib hpc hst =>
    refine h.enterLib (hpc.imp id fun hpost => ?_) hst
    obtain ⟨k, hk, -⟩ := hpost
    exact ⟨k, hk⟩
  | append hpc => exact h.append hpc
  | yield hpc hk => exact h.yield hk _
  | @sleepYield _ c k dormant hpc hk ht d eintr =>
    have hk' : Suspends (s.asleep c d) c k :=
      ⟨hk.real, by simpa [St.asleep, setCtx] using hk.state, hk.queued⟩
    exact (h.asleep d).yield hk' eintr
  | removeMe hpc => exact h.takenOff hpc
  | @complete _ c k v sq o hpc =>
    refine { h with me := ?_, resumed := ?_, run := ?_, ucRun := ?_ }
    all_goals grind [Inv, Pc.runs]
  | resume hne hf => exact h.queueNow hne hf (.inl rfl)
  | resumeFast hpc hf =>
    have hco := @Inv.coState_of_queue
    obtain ⟨h1, h2, h3, h4, h5, h6, h7, h8, h9, h10⟩ := h
    constructor
    all_goals simp only [setCtx, Function.update_apply]
    all_goals grind [Pc.runs]
  | interrupt hne hf => exact h.queueNow hne hf (.inr rfl)
  | wake hq hne => exact h.wake hq hne
  | createFree hc => exact h.createFree hc _ _
  | createNew => exact h.createNew _ _
  | @die _ c hpc hst =>
    have hf : (s.ctx c).f ≠ none := h.live c (by simp [hst])
    have hlt : c < s.brk := by
      by_contra hb; exact hf (h.fresh c (Nat.le_of_not_lt hb))
    exact (h.toSched none).buried (by simp [Pc.runs]) hlt
  | quit => exact h.toSched s.me
  | @discard _ s1 c poll hpc hp hst =>
    have h1 := h.popped hp
    have hpc1 : s1.pc = .sched ∧ c < s1.brk := by
      cases hp with
      | tmp hc | runq hc | poll hc => exact ⟨hpc, h.alloc c hc⟩
    exact h1.buried (by simp [hpc1.1, Pc.runs]) hpc1.2
  | release hl hr => exact h.cleared hr
  | @unlink _ c hf =>
    have hd : (s.ctx c).state = .dormant := by
      by_contra hd; exact h.live c hd hf
    refine h.wq s.waitqOk fun t q hm => ?_
    by_cases htc : t = c
    · subst htc
      exact .inr fun hk => by rw [hd]; exact (Inv.coState_of_queue hk).2.2.2.symm
    · exact .inl (Inv.mem_leave hm htc)
  | @drop _ c =>
    have h1 : Inv (s.setCtx c { s.ctx c with rc := 0 }) := by
      refine h.congr (fun t => ?_) rfl rfl rfl rfl rfl fun c hc => hc
      simp only [setCtx, Function.update_apply]
      split <;> simp_all
    exact { h1 with
      nodup := h.nodup.erase c
      alloc := fun x hx => h.alloc x (List.mem_of_mem_erase hx) }
  | gcList hl =>
    refine { h with free := fun c hc => ?_ }
    rcases hl c (List.mem_append.2 hc) with hf | hf
    · exact h.free c (.inl hf)
    · exact h.free c (.inr hf.1)
  | @enter _ s1 s' c poll hpc hp hst hs =>
    have hst1 : (s1.ctx c).state = (s.ctx c).state := by
      cases hp <;> simp [popTmp, popRunq, clearExpire, setCtx]
    exact (h.popped hp).enter (by rw [hst1]; exact hst) hs
  | sift hs =>
    obtain ⟨-, -, -, rfl⟩ := sift_cases hs
    exact { h with }

theorem inv_begin {D : Diag} {e : Event} {s s1 : St} (h : Inv s) (hb : Begin D s e s1) : Inv s1 := by
  cases hb with
  | same => exact h
  | create _ hm => exact inv_micro h hm

/-- Every event keeps `Inv`. -/
theorem inv_step {D : Diag} {e : Event} {s s' : St} (h : Inv s) (hs : s.step D e = some s') :
    Inv s' := by
  obtain ⟨s1, hb, hc⟩ := step_micro h.base hs
  exact hc.inv (fun _ _ _ _ hm hi => inv_micro hi hm) (inv_begin h hb)

theorem inv_exec {D : Diag} {es : List Event} {s s' : St} (h : Inv s)
    (hs : exec (St.step D) s es = some s') : Inv s' :=
  exec_inv (C := fun _ _ => True) (fun _ _ _ hi _ hs => inv_step hi hs) h
    (along_of_forall fun _ _ => trivial) hs

theorem Reaches.inv {D : Diag} {objs : Objs} {now : Nat} {es : List Event} {s : St}
    (h : Reaches D objs now es s) : Inv s := inv_exec (inv_init objs now) h

end Mnthr

import Mnthr.L2Sched.Machine

/-!
# Micro-steps

Every event of the machine is a chain of a few kinds of atomic change:
a context is set for resume, a thread enters a wait queue, a context is
cleared, and so on. `Micro` lists them with the guards the code has passed
when it makes them; an invariant is checked once per kind, and
`L3Micro.Decompose` shows that every step is such a chain.

Two groups of writes are one micro-step each because no invariant looks
between them: an exiting context is cleared and put in `free_list` before its
joiners are woken, and a context taken from a sift batch is switched to at
once.
-/
namespace Mnthr

inductive Act where
  | env
  | attr (c : Ptr)
  | rc (c : Ptr) (v : Int)
  | enterLib (c : Ptr) (st : CoState)
  | expire (c : Ptr) (d : Nat)
  | append (c : Ptr) (q : Waitq)
  | yield (c : Ptr) (k : Call) (eintr : Bool)
  | sleepYield (c : Ptr) (d : Nat) (k : Call) (eintr dormant : Bool)
  | removeMe (c : Ptr) (q : Waitq)
  | complete (c : Ptr) (k : Call) (v : Int)
  | resume (c : Ptr)
  | resumeFast (c : Ptr)
  | interrupt (c : Ptr)
  | wake (q : Waitq) (t : Ptr)
  | create (c : Ptr)
  | die (c : Ptr)
  | quit (c : Ptr)
  | discard (c : Ptr) (poll : Bool)
  | release (c : Ptr)
  | unlink (c : Ptr)
  | drop (c : Ptr)
  | gcList
  | enter (c : Ptr) (poll : Bool)
  | sift
  deriving DecidableEq

/-- The state `co.state` has while a thread is suspended in `k`. -/
def Call.coState : Call → CoState
  | .start | .gone => .resumed
  | .sleep _ => .sleep
  | .join _ => .join
  | .interruptJoin _ | .interruptJoinTimeout .. | .errorJoin _ => .joinInterrupted
  | .subscribe _ | .subscribeTimeout _ => .signalSubscribe
  | .condWait _ | .semaAcquire _ | .isemaWait _ | .readLock _ | .writeLock _ => .condwait
  | .waitFor .. => .waitfor
  | .peek .. => .peek
  | .poll st => st

/-- `c` is what the scheduler resumes next, and `s1` the state in which
`poller_resume` is called: it comes off the sift batch, or a poller names it. -/
inductive Picked (s : St) (c : Ptr) : Bool → St → Prop where
  | tmp {rest : List Ptr} (hc : c ∈ s.ctxes) (h : s.tmp = c :: rest) :
    Picked s c false (s.popTmp c rest)
  | runq {rest : List Ptr} (hc : c ∈ s.ctxes) (ht : s.tmp = []) (h : s.runq = c :: rest) :
    Picked s c false (s.popRunq c rest)
  | poll (hc : c ∈ s.ctxes) (hf : (s.ctx c).f ≠ none) : Picked s c true s

/-- The thread `t` at the head of `q` is dequeued and set for resume. -/
def St.woken (s : St) (q : Waitq) (t : Ptr) (rest : List Ptr) : St :=
  let s1 := s.dequeue q t rest
  if (s.ctx t).f = none then s1 else s1.queueNow t { s.ctx t with state := .setResume }

/-- `c` is on its way to a yield, in state `st`. -/
def St.inLib (s : St) (c : Ptr) (st : CoState) : St :=
  { s.setCtx c { s.ctx c with state := st } with pc := .lib c }

/-- `c` enters the wait queue `q`. -/
def St.appended (s : St) (q : Waitq) (c : Ptr) : St := { s with wq := s.wq.append q c }

/-- `c` takes itself off the wait queue `q`. -/
def St.takenOff (s : St) (q : Waitq) (c : Ptr) : St :=
  { s with
    wq := (s.wq.unlink q c).setHosting c none,
    waitqOk := s.waitqOk && (s.wq.hosting c == some q) }

/-- `c` saves itself as `k` and the scheduler takes over. -/
def St.parked (s : St) (c : Ptr) (k : Call) (eintr : Bool) : St :=
  { s.setCtx c { s.ctx c with uc := k } with me := if eintr then s.me else none, pc := .sched }

/-- `c` enters the sleep queue under `d`, leaving its old place in it. -/
def St.asleep (s : St) (c : Ptr) (d : Nat) : St :=
  { s.setCtx c { s.ctx c with expireTicks := d } with
    sleepq := (s.sleepq.remove (s.ctx c).expireTicks c).enqueue (s.ctx c).prio d c }

/-- `c` is cleared and leaves the sleep queue. -/
def St.buried (s : St) (c : Ptr) : St :=
  { s.setCtx c (s.ctx c).cleared with
    sleepq := s.sleepq.remove (s.ctx c).expireTicks c, freeList := s.freeList ++ [c] }

/-- What a call may be suspended in: not an entry point, and the caller is in
the call's wait queue. -/
structure Suspends (s : St) (c : Ptr) (k : Call) : Prop where
  real : k.coState.resumable
  state : (s.ctx c).state = k.coState
  queued : ∀ q, k.queue = some q → s.wq.hosting c = some q ∧ c ∈ s.wq.queue q

section
open St

inductive Micro (D : Diag) : Act → St → St → Prop where
  | env {s : St} (o : Objs) (n : Nat) (r : Option Ret) :
    Micro D .env s { s with objs := o, now := n, ret := r }
  | attr {s : St} (c : Ptr) (a : Nat) (p : Bool) :
    Micro D (.attr c) s (s.setCtx c { s.ctx c with abac := a, prio := p })
  | rc {s : St} (c : Ptr) (v : Int)
      (hc : (s.ctx c).f ≠ none ∨ (s.ctx c).state ≠ .dormant ∨ s.me = some c) :
    Micro D (.rc c v) s (s.setCtx c { s.ctx c with rc := v })
  | enterLib {s : St} {c : Ptr} {st : CoState}
      (hpc : s.pc = .user c ∨ ∃ k, s.pc = .post c k ∧ k.target = none) (hst : st.resumable) :
    Micro D (.enterLib c st) s (s.inLib c st)
  | expire {s : St} {c : Ptr} (hpc : s.pc = .lib c) (d : Nat) :
    Micro D (.expire c d) s (s.setCtx c { s.ctx c with expireTicks := d })
  | append {s : St} {c : Ptr} (hpc : s.pc = .lib c) (q : Waitq) :
    Micro D (.append c q) s (s.appended q c)
  | yield {s : St} {c : Ptr} {k : Call} (hpc : s.pc = .lib c) (hk : Suspends s c k)
      (ht : k.target = none) (eintr : Bool) :
    Micro D (.yield c k eintr) s (s.parked c k eintr)
  | sleepYield {s : St} {c : Ptr} {k : Call} {dormant : Bool} (hpc : s.pc = .lib c)
      (hk : Suspends s c k)
      (ht : ∀ x n, k.target = some (x, n) →
        (s.ctx x).id = n ∧ (dormant = false → (s.ctx x).state ≠ .dormant)) (d : Nat) (eintr : Bool) :
    Micro D (.sleepYield c d k eintr dormant) s ((s.asleep c d).parked c k eintr)
  | removeMe {s : St} {c x : Ptr} {n : Int} {k : Call} (hpc : s.pc = .post c k)
      (ht : k.target = some (x, n)) (hx : ¬ s.gone x n) :
    Micro D (.removeMe c (.ctx x)) s { s.takenOff (.ctx x) c with pc := .user c }
  | complete {s : St} {c : Ptr} {k : Call} {v : Int} (sq : Sleepq) (o : Objs)
      (hpc : s.pc = .post c k) (ht : ∀ x n, k.target = some (x, n) → s.gone x n)
      (hq : sq = s.sleepq ∨ sq = s.sleepq.remove (s.ctx c).expireTicks c)
      (hv : v = 0 → (s.ctx c).rc = 0 ∨ ∃ x n, k.target = some (x, n) ∧ (s.ctx x).rc = 0) :
    Micro D (.complete c k v) s
      { s with sleepq := sq, objs := o, pc := .user c, ret := some ⟨some c, some k, v⟩ }
  | resume {s : St} {c : Ptr} (hne : s.me ≠ some c) (hf : (s.ctx c).f ≠ none)
      (hst : (s.ctx c).state = .dormant ∨ (s.ctx c).state = .signalSubscribe ∨
        (s.ctx c).uc = .start) :
    Micro D (.resume c) s (s.queueNow c { s.ctx c with state := .setResume })
  | resumeFast {s : St} {c : Ptr} (hpc : s.pc = .sched) (hf : (s.ctx c).f ≠ none)
      (hst : (s.ctx c).state = .otherPoller) :
    Micro D (.resumeFast c) s
      { s.setCtx c { s.ctx c with state := .setResume, expireTicks := SLEEP_RESUME_NOW } with
        sleepq := s.sleepq.insertOnce SLEEP_RESUME_NOW c }
  | interrupt {s : St} {c : Ptr} (hne : s.me ≠ some c) (hf : (s.ctx c).f ≠ none) :
    Micro D (.interrupt c) s (s.queueNow c
      { s.ctx c with rc := D.CO_RC_USER_INTERRUPTED, state := .setInterrupt })
  | wake {s : St} {q : Waitq} {t : Ptr} {rest : List Ptr} (hq : s.wq.queue q = t :: rest)
      (hne : s.me ≠ some t) (hx : ∀ x, q = .ctx x → (s.ctx x).f = none) :
    Micro D (.wake q t) s (s.woken q t rest)
  | createFree {s : St} {c : Ptr} (hc : s.firstFree = some c) (hid : (s.ctx c).id = -1) (f : Nat)
      (n : Int) :
    Micro D (.create c) s
      { s.setCtx c { s.ctx c with rc := 0, id := s.coId, f := some f, uc := .start } with
        freeList := s.freeList.erase c, coId := n }
  | createNew {s : St} (f : Nat) (n : Int) :
    Micro D (.create s.brk) s
      { s.setCtx s.brk { Ctx.init with id := s.coId, f := some f, uc := .start } with
        ctxes := s.ctxes ++ [s.brk], brk := s.brk + 1, coId := n }
  | die {s : St} {c : Ptr} (hpc : s.pc = .user c) (hst : (s.ctx c).state = .resumed) :
    Micro D (.die c) s { s.buried c with me := none, pc := .sched }
  | quit {s : St} {c : Ptr} (hpc : s.pc = .user c) : Micro D (.quit c) s { s with pc := .sched }
  | discard {s s1 : St} {c : Ptr} {poll : Bool} (hpc : s.pc = .sched) (hp : Picked s c poll s1)
      (hst : (s.ctx c).state.resumable = false) :
    Micro D (.discard c poll) s (s1.buried c)
  | release {s : St} {c : Ptr} (hl : s.linked c) (hr : s.pc.runs ≠ some c) :
    Micro D (.release c) s (s.setCtx c (s.ctx c).cleared)
  | unlink {s : St} {c : Ptr} (hf : (s.ctx c).f = none) :
    Micro D (.unlink c) s { s with wq := (s.wq.leave c).setHosting c none }
  | drop {s : St} {c : Ptr} (hr : s.pc.runs ≠ some c) (hf : (s.ctx c).f = none) :
    Micro D (.drop c) s { s.setCtx c { s.ctx c with rc := 0 } with ctxes := s.ctxes.erase c }
  | gcList {s : St} {l1 l2 : List Ptr} (hl : ∀ c ∈ l1 ++ l2, s.linked c)
      (hs : (l1 ++ l2).Sublist s.ctxes) :
    Micro D .gcList s { s with freeList := l1, gcRest := l2 }
  | enter {s s1 s' : St} {c : Ptr} {poll : Bool} (hpc : s.pc = .sched) (hp : Picked s c poll s1)
      (hst : (s.ctx c).state.resumable) (hs : s1.enter c = some s') :
    Micro D (.enter c poll) s s'
  | sift {s s' : St} (h : s.sift = some s') : Micro D .sift s s'

end

/-- A context that is switched to starts its thread, or goes on in the call it
saved. -/
theorem St.enter_cases {s s' : St} {c : Ptr} (h : s.enter c = some s') :
    ((s.ctx c).uc = .start ∧ s' = { s.setCtx c { s.ctx c with state := .resumed } with
      me := some c, pc := .user c }) ∨
    ((s.ctx c).uc ≠ .start ∧ (s.ctx c).uc ≠ .gone ∧
      s' = { s.setCtx c { s.ctx c with state := .resumed, uc := .gone } with
        me := some c, pc := .post c (s.ctx c).uc }) := by
  unfold St.enter at h
  simp only at h
  split at h
  · cases h
  · rename_i hu
    cases h
    exact .inl ⟨hu, rfl⟩
  · rename_i hg hs
    cases h
    exact .inr ⟨hs, hg, rfl⟩

/-- A sift begins when no other is under way. -/
theorem St.sift_cases {s s' : St} (h : s.sift = some s') :
    s.pc = .sched ∧ s.runq = [] ∧ s.tmp = [] ∧
      s' = { s with
        siftNow := s.now
        runq := s.sleepq.trie.front fun t => decide ((s.ctx t).expireTicks < s.now)
        sleepq := { s.sleepq with
          trie := s.sleepq.trie.popWhile fun t => decide ((s.ctx t).expireTicks < s.now) } } := by
  unfold St.sift at h
  split at h
  · rename_i hg
    cases h
    exact ⟨hg.1, hg.2.1, hg.2.2, rfl⟩
  · cases h

/-! ## Frame -/

/-- The context a micro-step is about. -/
def Act.subject : Act → Option Ptr
  | .attr c | .rc c _ | .enterLib c _ | .expire c _ | .append c _ | .yield c _ _
  | .sleepYield c _ _ _ _ | .removeMe c _ | .complete c _ _ | .resume c | .resumeFast c
  | .interrupt c | .wake _ c | .create c | .die c | .quit c | .discard c _ | .release c
  | .unlink c | .drop c | .enter c _ => some c
  | .env | .gcList | .sift => none

/-- A context other than `x` may have changed. -/
structure SameFor (x : Ptr) (s s' : St) : Prop where
  ctx : s'.ctx x = s.ctx x
  runs : s'.pc.runs = some x ↔ s.pc.runs = some x
  me : s'.me = some x → s.me = some x
  alloc : x ∈ s.ctxes → x ∈ s'.ctxes
  hosting : s'.wq.hosting x = s.wq.hosting x

theorem SameFor.trans {x : Ptr} {s s1 s' : St} (h : SameFor x s s1) (h' : SameFor x s1 s') :
    SameFor x s s' :=
  ⟨h'.ctx.trans h.ctx, h'.runs.trans h.runs, fun hm => h.me (h'.me hm),
    fun hm => h'.alloc (h.alloc hm), h'.hosting.trans h.hosting⟩

theorem sameFor_setCtx {x c : Ptr} {s : St} {y : Ctx} (h : x ≠ c) : SameFor x s (s.setCtx c y) :=
  ⟨by simp [St.setCtx, h], Iff.rfl, id, id, rfl⟩

theorem sameFor_queueNow {x c : Ptr} {s : St} {y : Ctx} (h : x ≠ c) :
    SameFor x s (s.queueNow c y) :=
  ⟨by simp [St.queueNow, St.sleepqEnqueue, St.sleepqRemove, St.setCtx, h], Iff.rfl, id, id, rfl⟩

theorem Picked.sameFor {x c : Ptr} {poll : Bool} {s s1 : St} (hp : Picked s c poll s1)
    (h : x ≠ c) : SameFor x s s1 := by
  cases hp with
  | tmp | runq =>
    exact ⟨by simp [St.popTmp, St.popRunq, St.clearExpire, St.setCtx, h], Iff.rfl, id, id, rfl⟩
  | poll => exact ⟨rfl, Iff.rfl, id, id, rfl⟩

theorem leave_hosting (w : WaitQs) (c : Ptr) : (w.leave c).hosting = w.hosting := by
  unfold WaitQs.leave
  split <;> rfl

/-- A micro-step leaves alone what it is not about. -/
theorem micro_sameFor {D : Diag} {a : Act} {s s' : St} {x : Ptr} (hm : Micro D a s s')
    (hx : a.subject ≠ some x) : SameFor x s s' := by
  have ne : ∀ {c}, some c ≠ some x → x ≠ c := fun h e => h (congrArg some e.symm)
  cases hm with
  | env | gcList => exact ⟨rfl, Iff.rfl, id, id, rfl⟩
  | @append _ c hpc q =>
    refine ⟨rfl, Iff.rfl, id, id, ?_⟩
    simp [St.appended, WaitQs.append, WaitQs.setHosting, WaitQs.setQueue, ne hx, leave_hosting]
  | unlink =>
    refine ⟨rfl, Iff.rfl, id, id, ?_⟩
    simp [WaitQs.setHosting, ne hx, leave_hosting]
  | attr | rc | expire | release => exact sameFor_setCtx (ne hx)
  | enterLib hpc =>
    refine (sameFor_setCtx (ne hx)).trans ⟨rfl, ?_, id, id, rfl⟩
    simp only [Act.subject] at hx
    rcases hpc with hpc | ⟨k, hpc, -⟩ <;> simp [Pc.runs, St.setCtx, hpc, St.inLib]
  | yield hpc =>
    refine (sameFor_setCtx (ne hx)).trans ⟨rfl, ?_, ?_, id, rfl⟩
    · simp only [Act.subject] at hx
      simp [Pc.runs, St.setCtx, hpc, St.parked, Option.some_inj.not.1 hx]
    · simp only [St.parked, St.setCtx]
      split <;> simp
  | sleepYield hpc =>
    refine (sameFor_setCtx (ne hx)).trans ((sameFor_setCtx (ne hx)).trans ⟨rfl, ?_, ?_, id, rfl⟩)
    · simp only [Act.subject] at hx
      simp [Pc.runs, St.setCtx, hpc, St.parked, St.asleep, Option.some_inj.not.1 hx]
    · simp only [St.parked, St.asleep, St.setCtx]
      split <;> simp
  | removeMe hpc =>
    exact ⟨rfl, by simp [hpc, Pc.runs], id, id, by simp [St.takenOff, WaitQs.setHosting, WaitQs.unlink,
      WaitQs.setQueue, ne hx]⟩
  | complete _ _ hpc => exact ⟨rfl, by simp [hpc, Pc.runs], id, id, rfl⟩
  | resume | interrupt => exact sameFor_queueNow (ne hx)
  | resumeFast => exact (sameFor_setCtx (ne hx)).trans ⟨rfl, Iff.rfl, id, id, rfl⟩
  | @wake _ q t rest =>
    have h1 : SameFor x s (s.dequeue q t rest) :=
      ⟨rfl, Iff.rfl, id, id, by simp [St.dequeue, WaitQs.setHosting, WaitQs.setQueue, ne hx]⟩
    unfold St.woken
    split
    · exact h1
    · exact h1.trans (sameFor_queueNow (ne hx))
  | createFree => exact (sameFor_setCtx (ne hx)).trans ⟨rfl, Iff.rfl, id, id, rfl⟩
  | createNew =>
    exact (sameFor_setCtx (ne hx)).trans ⟨rfl, Iff.rfl, id, List.mem_append_left _, rfl⟩
  | die hpc =>
    refine (sameFor_setCtx (ne hx)).trans ⟨rfl, ?_, by simp, id, rfl⟩
    simp only [Act.subject] at hx
    simp [Pc.runs, St.setCtx, hpc, Option.some_inj.not.1 hx]
  | quit hpc =>
    refine ⟨rfl, ?_, id, id, rfl⟩
    simp only [Act.subject] at hx
    simp [Pc.runs, hpc, Option.some_inj.not.1 hx]
  | discard hpc hp =>
    exact (hp.sameFor (ne hx)).trans ((sameFor_setCtx (ne hx)).trans ⟨rfl, Iff.rfl, id, id, rfl⟩)
  | @drop _ c =>
    exact (sameFor_setCtx (ne hx)).trans ⟨rfl, Iff.rfl, id, (List.mem_erase_of_ne (ne hx)).2, rfl⟩
  | @enter _ s1 s' c poll hpc hp hst hs =>
    have h1 := hp.sameFor (ne hx)
    have hpc1 : s1.pc = .sched := by cases hp <;> exact hpc
    refine h1.trans ?_
    rcases St.enter_cases hs with ⟨-, rfl⟩ | ⟨-, -, rfl⟩
    all_goals
      refine (sameFor_setCtx (ne hx)).trans ⟨rfl, ?_, fun hm => absurd hm hx, id, rfl⟩
      simp only [Act.subject] at hx
      simp [Pc.runs, St.setCtx, hpc1, Option.some_inj.not.1 hx]
  | sift hs =>
    obtain ⟨-, -, -, rfl⟩ := St.sift_cases hs
    exact ⟨rfl, Iff.rfl, id, id, rfl⟩

end Mnthr

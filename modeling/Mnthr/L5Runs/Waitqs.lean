import Mnthr.L4Inv.Waitqs

/-!
# Wait queues along runs

* `waitqs_ok`: queues and back pointers agree in every run in which no thread
  is created with an id that a waiter on its context remembers.
* `condSignalOne_used_iff`: a signal reaches a thread that is still blocked in
  `mnthr_cond_wait` exactly when the thread at the head of the queue is one.
-/
namespace Mnthr
open St

/-! ## Signals -/

/-- `t` is blocked in `mnthr_cond_wait` on `i`, not interrupted and not yet
set for resume. -/
def CondBlocked (s : St) (i : Nat) (t : Ptr) : Prop :=
  (s.ctx t).uc = .condWait i ∧ (s.ctx t).state = .condwait

instance (s : St) (i : Nat) (t : Ptr) : Decidable (CondBlocked s i t) := by
  unfold CondBlocked; infer_instance

/-- `mnthr_cond_signal_one` takes a blocked thread off the queue and queues it
for resume. -/
def SignalUsed (D : Diag) (s : St) (i : Nat) : Prop :=
  ∃ t s', CondBlocked s i t ∧ s.step D (.call (.condSignalOne i)) = some s' ∧
    s.wq.queue (.cond i) = t :: s'.wq.queue (.cond i) ∧ (s'.ctx t).state = .setResume ∧
    s'.sleepq.At SLEEP_RESUME_NOW t

/-- What the call does when the head of the queue has a thread. -/
theorem condSignalOne_head {D : Diag} {s : St} {i : Nat} {t : Ptr} {rest : List Ptr}
    (hc : s.mayCall) (hq : s.wq.queue (.cond i) = t :: rest) (hme : s.me ≠ some t)
    (hf : (s.ctx t).f ≠ none) :
    ∃ s', s.step D (.call (.condSignalOne i)) = some s' ∧ s'.wq.queue (.cond i) = rest ∧
      (s'.ctx t).state = .setResume ∧ s'.sleepq.At SLEEP_RESUME_NOW t := by
  refine ⟨s.woken (.cond i) t rest, ?_, ?_, ?_, ?_⟩
  · simp only [step, hc, if_true, callOp, resumeWaitqOne, hq, setResume]
    rw [if_neg (show ¬ (s.dequeue (.cond i) t rest).me = some t from hme),
      if_neg (show ¬ ((s.dequeue (.cond i) t rest).ctx t).f = none from hf)]
    rw [woken, if_neg hf]
    rfl
  · rw [woken_queue, Function.update_self]
  · simp [woken, hf, queueNow, sleepqEnqueue, sleepqRemove, setCtx]
  · rw [woken, if_neg hf]
    have := @Sleepq.at_enqueue_self
      (((s.dequeue (.cond i) t rest).sleepq.remove (s.ctx t).expireTicks t)) SLEEP_RESUME_NOW t
      (s.ctx t).prio
    simpa [queueNow, sleepqEnqueue, sleepqRemove, setCtx, dequeue] using this

theorem condSignalOne_used_iff {D : Diag} {objs : Objs} {now : Nat} {es : List Event} {s : St}
    (hr : Reaches D objs now es s) (hc : s.mayCall) (i : Nat) :
    ((∃ t, CondBlocked s i t) → SignalUsed D s i) ↔
      ((∃ t, CondBlocked s i t) → ∃ t, (s.wq.queue (.cond i)).head? = some t ∧
        CondBlocked s i t ∧ s.me ≠ some t) := by
  have hI := hr.inv
  constructor
  · intro h hb
    obtain ⟨t, s', ht, hs, hq, -⟩ := h hb
    refine ⟨t, by rw [hq]; rfl, ht, ?_⟩
    simp only [step, hc, if_true, callOp] at hs
    rcases resumeWaitqOne_cases hs with ⟨h0, -⟩ | ⟨u, rest, hu, hme, -⟩
    · rw [hq] at h0; cases h0
    · rw [hq] at hu
      cases hu
      exact hme
  · intro h hb
    obtain ⟨t, hh, ht, hme⟩ := h hb
    obtain ⟨rest, hq⟩ : ∃ rest, s.wq.queue (.cond i) = t :: rest := by
      cases hl : s.wq.queue (.cond i) with
      | nil => rw [hl] at hh; cases hh
      | cons u rest => rw [hl] at hh; cases hh; exact ⟨rest, rfl⟩
    have hf : (s.ctx t).f ≠ none := hI.live t (by rw [ht.2]; simp)
    obtain ⟨s', hs, hq', hst, hat⟩ := condSignalOne_head (D := D) hc hq hme hf
    exact ⟨t, s', ht, hs, by rw [hq, hq'], hst, hat⟩

/-- Two threads wait, a third is about to signal. -/
def twoWaiters : List Event :=
  [.call (.spawn 0), .call (.spawn 0), .call (.spawn 0), .tick 10, .sift, .next,
    .block (.condWait 0) false, .next, .block (.condWait 0) false, .next]

theorem condSignalOne_used_twoWaiters :
    ∃ s, sampleRun twoWaiters = some s ∧ SignalUsed .sample s 0 := by
  obtain ⟨s, hs⟩ := Option.isSome_iff_exists.1 (show (sampleRun twoWaiters).isSome by decide)
  have hb : CondBlocked s 0 0 := by
    have := sampleRun_fact hs (f := fun s => decide (CondBlocked s 0 0)) (a := true) (by decide)
    simpa using this
  have hh : (s.wq.queue (.cond 0)).head? = some 0 :=
    sampleRun_fact hs (f := fun s => (s.wq.queue (.cond 0)).head?) (by decide)
  have hme : s.me = some 2 := sampleRun_fact hs (f := St.me) (by decide)
  refine ⟨s, hs, (condSignalOne_used_iff (show Reaches .sample .sample 0 twoWaiters s from hs)
    (sampleRun_fact hs (f := mayCall) (by decide)) 0).2 (fun _ => ⟨0, hh, hb, ?_⟩) ⟨0, hb⟩⟩
  rw [hme]; decide

/-- Two threads wait, the first is interrupted, a third is about to signal. -/
def interruptedHead : List Event := twoWaiters ++ [.call (.setInterrupt 0)]

theorem condSignalOne_absorbed : ¬ ∀ (D : Diag) (objs : Objs) (now : Nat) (es : List Event) (s : St)
    (i : Nat), Reaches D objs now es s → s.mayCall → (∃ t, CondBlocked s i t) →
      SignalUsed D s i := by
  intro h
  obtain ⟨s, hs⟩ := Option.isSome_iff_exists.1 (show (sampleRun interruptedHead).isSome by decide)
  have hq : s.wq.queue (.cond 0) = [0, 1] :=
    sampleRun_fact hs (f := fun s => s.wq.queue (.cond 0)) (by decide)
  have h0 : (s.ctx 0).state = .setInterrupt :=
    sampleRun_fact hs (f := fun s => (s.ctx 0).state) (by decide)
  have h1 : CondBlocked s 0 1 := by
    have := sampleRun_fact hs (f := fun s => decide (CondBlocked s 0 1)) (a := true) (by decide)
    simpa using this
  obtain ⟨t, s', ht, -, hq', -⟩ := h .sample .sample 0 interruptedHead s 0 hs
    (sampleRun_fact hs (f := mayCall) (by decide)) ⟨1, h1⟩
  rw [hq] at hq'
  have htt : t = 0 := by simpa using congrArg List.head? hq'.symm
  rw [htt] at ht
  rw [ht.2] at h0
  cases h0

/-! ## Queues and back pointers -/

theorem waitqs_ok {D : Diag} {objs : Objs} {now : Nat} {es : List Event} {s : St}
    (hr : Reaches D objs now es s)
    (hc : Along (St.step D) NoStaleId (St.init objs now) es) :
    (∀ t q, t ∈ s.wq.queue q ↔ s.wq.hosting t = some q) ∧ (∀ q, (s.wq.queue q).Nodup) ∧
      s.waitqOk = true := by
  have h := exec_inv (I := fun u => Inv u ∧ WInv u)
    (fun u e v hu hcu hs => ⟨inv_step hu.1 hs, winv_step hu.1 hu.2 hcu hs⟩)
    ⟨inv_init objs now, winv_init objs now⟩ hc hr
  exact ⟨h.2.ok.mem, h.2.ok.nodup, h.2.asserts⟩

/-- `NoStaleId`, evaluated: addresses from `brk` on hold no thread. -/
def noStaleId (s : St) (e : Event) : Bool :=
  match s.creates e with
  | none => true
  | some c => (List.range s.brk).all (fun t => (s.ctx t).uc.target != some (c, s.coId)) &&
    (s.pc.call.all fun k => k.target != some (c, s.coId))

theorem noStaleId_of_check {s : St} {e : Event} (hI : Inv s) (h : noStaleId s e) :
    NoStaleId s e := by
  intro c hc t ht
  simp only [noStaleId, hc, Bool.and_eq_true, List.all_eq_true, List.mem_range] at h
  rcases ht with ⟨hf, hu⟩ | ⟨k, hk, ht⟩
  · have hlt : t < s.brk := by
      by_contra hb; exact hf (hI.fresh t (Nat.le_of_not_lt hb))
    have := h.1 t hlt
    simp [hu] at this
  · have := h.2
    simp [hk, Pc.call, ht] at this

/-- Thread 0 peeks at thread 1 and is woken by its exit, while thread 2 goes on. -/
def peekedExit : List Event :=
  [.call (.spawn 0), .call (.spawn 0), .call (.spawn 0), .tick 10, .sift, .next,
    .block (.peek 1 SLEEP_FOREVER) false, .next, .exit false, .next]

/-- Thread 2 then starts a thread in the context of thread 1, under another
id, and thread 0 finds its target gone. -/
theorem waitqs_ok_peekedExit : ∃ s, sampleRun (peekedExit ++ [.call (.spawn 0), .exit false, .sift,
    .next, .cont false]) = some s ∧ s.waitqOk = true ∧ s.wq.hosting 0 = none := by
  obtain ⟨s, hs⟩ := Option.isSome_iff_exists.1 (show (sampleRun (peekedExit ++
    [.call (.spawn 0), .exit false, .sift, .next, .cont false])).isSome by decide)
  have hc : Along (St.step .sample) NoStaleId (St.init .sample 0) (peekedExit ++
      [.call (.spawn 0), .exit false, .sift, .next, .cont false]) :=
    along_of_check (I := Inv) (p := noStaleId) (fun _ _ _ hu hs => inv_step hu hs)
      (fun _ _ hu hc => noStaleId_of_check hu hc) (inv_init .sample 0) (by decide)
  exact ⟨s, hs, (waitqs_ok hs hc).2.2,
    sampleRun_fact hs (f := fun s => s.wq.hosting 0) (by decide)⟩

/-! ## A run that comes back to the same id

`co_id` is an `int`: after 2 ^ 32 creations a context can get the id a waiter
remembers. Thread 0 peeks at thread 1, which waits on a condition variable;
thread 2 starts one thread after the other, each in context 3. -/

/-- What one sees of a state at a context and a wait queue. -/
def St.view (s : St) (t : Ptr) (q : Waitq) :=
  ((s.ctx t, s.sleepq.bucket t, s.wq.hosting t, s.wq.queue q),
    (s.ctxes, s.brk, s.coId, s.freeList, s.gcRest, s.sleepq.trie, s.objs),
    (s.me, s.pc, s.runq, s.tmp, s.siftNow, s.now, s.ret, s.waitqOk))

theorem St.view_ext {s s' : St} (h : ∀ t q, s.view t q = s'.view t q) : s = s' := by
  obtain ⟨ctx, _, _, _, _, _, ⟨_, bucket⟩, ⟨queue, hosting⟩, _⟩ := s
  obtain ⟨ctx', _, _, _, _, _, ⟨_, bucket'⟩, ⟨queue', hosting'⟩, _⟩ := s'
  simp only [St.view, Prod.mk.injEq] at h
  have h0 := h 0 (.ctx 0)
  have h1 : ctx = ctx' := funext fun t => (h t (.ctx 0)).1.1
  have h2 : bucket = bucket' := funext fun t => (h t (.ctx 0)).1.2.1
  have h3 : hosting = hosting' := funext fun t => (h t (.ctx 0)).1.2.2.1
  have h4 : queue = queue' := funext fun q => (h 0 q).1.2.2.2
  simp_all

/-- The four contexts in use, those never used, and the other wait queues
decide a state. -/
theorem eq_of_view {o : Option St} {s : St}
    (hA : o.map (fun u => [0, 1, 2, 3].map fun t => u.view t (.ctx t)) =
      some ([0, 1, 2, 3].map fun t => s.view t (.ctx t)))
    (hB : ∀ t, o.map (fun u => u.view (t + 4) (.ctx (t + 4))) = some (s.view (t + 4) (.ctx (t + 4))))
    (hC : ∀ i, o.map (fun u => [Waitq.cond i, .sema i, .isema i, .rwlock i].map u.wq.queue) =
      some ([Waitq.cond i, .sema i, .isema i, .rwlock i].map s.wq.queue)) : o = some s := by
  cases o with
  | none => cases hA
  | some u =>
    simp only [Option.map_some, Option.some.injEq, List.map_cons, List.map_nil,
      List.cons.injEq, and_true] at hA hB hC
    obtain ⟨h0, h1, h2, h3⟩ := hA
    have hAt : ∀ t, u.view t (.ctx t) = s.view t (.ctx t)
      | 0 => h0
      | 1 => h1
      | 2 => h2
      | 3 => h3
      | t + 4 => hB t
    have hq : ∀ q, u.wq.queue q = s.wq.queue q
      | .ctx t => congrArg (fun v => v.1.2.2.2) (hAt t)
      | .cond i => (hC i).1
      | .sema i => (hC i).2.1
      | .isema i => (hC i).2.2.1
      | .rwlock i => (hC i).2.2.2
    refine congrArg some (St.view_ext fun t q => ?_)
    have ht := hAt t
    simp only [St.view, Prod.mk.injEq] at ht ⊢
    exact ⟨⟨ht.1.1, ht.1.2.1, ht.1.2.2.1, hq q⟩, ht.2⟩

/-- One more thread in context 3, from its creation to its exit. -/
def oneMore : List Event :=
  [.call (.spawn 0), .block .yield false, .sift, .next, .exit false, .next, .cont false]

def longPeek : List Event :=
  [.call (.spawn 0), .call (.spawn 0), .call (.spawn 0), .tick 10, .sift, .next,
    .block (.peek 1 SLEEP_FOREVER) false, .next, .block (.condWait 0) false, .next] ++ oneMore

/-- The state after `longPeek`, up to `co_id`. -/
def atPeek (n : Int) : St where
  ctx
    | 0 => ⟨0, some 0, 0, .peek, 0, SLEEP_FOREVER, false, .peek 1 1⟩
    | 1 => ⟨1, some 0, 0, .condwait, 0, SLEEP_UNDEFINED, false, .condWait 0⟩
    | 2 => ⟨2, some 0, 0, .resumed, 0, SLEEP_UNDEFINED, false, .gone⟩
    | 3 => ⟨-1, none, 0, .dormant, 0, SLEEP_UNDEFINED, false, .start⟩
    | _ => Ctx.init
  ctxes := [0, 1, 2, 3]
  brk := 4
  coId := n
  freeList := [3]
  gcRest := []
  sleepq := ⟨⟨[(SLEEP_FOREVER, 0)], List.pairwise_singleton ..⟩, fun _ => []⟩
  wq := ⟨fun q => if q = .ctx 1 then [0] else if q = .cond 0 then [1] else [],
    fun t => if t = 0 then some (.ctx 1) else if t = 1 then some (.cond 0) else none⟩
  objs := .sample
  me := some 2
  pc := .user 2
  runq := []
  tmp := []
  siftNow := 10
  now := 10
  ret := some ⟨some 2, some (.sleep SLEEP_RESUME_NOW), 0⟩
  waitqOk := true

theorem sampleRun_longPeek : sampleRun longPeek = some (atPeek 4) := by
  refine eq_of_view rfl (fun t => rfl) fun i => ?_
  cases i <;> rfl

theorem exec_oneMore (n : Int) : exec (St.step .sample) (atPeek n) oneMore =
    some (atPeek ((n + 1).bmod (2 ^ 32))) := by
  refine eq_of_view ?_ (fun t => ?_) fun i => ?_
  · rfl
  · rfl
  · rfl

/-- `k` threads more move `co_id` by `k`, around the end of the integers. -/
theorem exec_manyMore : ∀ (k : Nat) (n : Int),
    exec (St.step .sample) (atPeek (n.bmod (2 ^ 32))) (List.replicate k oneMore).flatten =
      some (atPeek ((n + k).bmod (2 ^ 32)))
  | 0, n => by simp [exec]
  | k + 1, n => by
    have h := exec_oneMore (n.bmod (2 ^ 32))
    rw [Int.bmod_add_bmod] at h
    rw [List.replicate_succ, List.flatten_cons, exec_trans h (exec_manyMore k (n + 1)),
      show n + 1 + k = n + (k + 1 : Nat) by omega]

/-- Thread 1 is woken and exits, and context 1 gets a thread with the id 1. -/
def sameId : List Event :=
  [.call (.condSignalOne 0), .block .yield false, .sift, .next, .cont false, .exit false, .next,
    .cont false, .call (.spawn 0), .call (.spawn 0), .exit false, .sift, .next, .cont false]

theorem waitqs_sameId : ¬ ∀ (D : Diag) (objs : Objs) (now : Nat) (es : List Event) (s : St),
    Reaches D objs now es s → (∀ t q, t ∈ s.wq.queue q ↔ s.wq.hosting t = some q) ∧
      (∀ q, (s.wq.queue q).Nodup) ∧ s.waitqOk = true := by
  intro h
  obtain ⟨s, hs⟩ := Option.isSome_iff_exists.1
    (show (exec (St.step .sample) (atPeek 0) sameId).isSome by decide)
  have hok : s.waitqOk = false := by
    have : (exec (St.step .sample) (atPeek 0) sameId).map St.waitqOk = some false := by decide
    rw [hs] at this
    exact Option.some.inj this
  have hmany := exec_manyMore (2 ^ 32 - 4) 4
  rw [show ((4 : Int) + (2 ^ 32 - 4 : Nat)).bmod (2 ^ 32) = 0 by decide,
    show (4 : Int).bmod (2 ^ 32) = 4 by decide] at hmany
  have hr : Reaches .sample .sample 0
      (longPeek ++ (List.replicate (2 ^ 32 - 4) oneMore).flatten ++ sameId) s :=
    exec_trans (exec_trans sampleRun_longPeek hmany) hs
  rw [(h _ _ _ _ _ hr).2.2] at hok
  cases hok

end Mnthr

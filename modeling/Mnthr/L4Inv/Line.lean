import Mnthr.L4Inv.Exit
import Mnthr.L4Inv.Serving
import Mnthr.L4Inv.Waitqs

/-!
# Waiting in line

A thread that blocked in a wait queue passes two more places until it runs:
the list of `MNTHR_SLEEP_RESUME_NOW` in the sleep queue, where a signal puts
it, and the batch of the sift. `St.line` is the three of them, the first to run
first. `InLine` says that threads which nobody but a signal of their queue
resumes keep the order in which they blocked; `line_micro` is its step lemma.
-/
namespace Mnthr
open St

/-- The wait queues and their back pointers agree, and a thread in a timed wait
is in the queue of its target, if in any. -/
structure Linked (s : St) : Prop where
  ok : s.wq.Ok
  aimed : ∀ t x n q, ((s.ctx t).uc.target = some (x, n) ∨
    ∃ k, s.pc = .post t k ∧ k.target = some (x, n)) → s.wq.hosting t = some q → q = .ctx x

theorem linked_init (objs : Objs) (now : Nat) : Linked (St.init objs now) :=
  ⟨(winv_init objs now).ok, by simp [St.init, WaitQs.empty]⟩

/-- The batch of the sift, what will be resumed by the next one, and the
waiters of `q`. -/
def St.line (s : St) (q : Waitq) : List Ptr :=
  s.pending ++ s.sleepq.view SLEEP_RESUME_NOW ++ s.wq.queue q

/-- `t`, of normal priority, is suspended; it waits in `q`, or has been woken. -/
structure InWait (q : Waitq) (s : St) (t : Ptr) : Prop where
  normal : (s.ctx t).prio = false
  resumable : (s.ctx t).state.resumable
  out : s.pc.runs ≠ some t
  hosted : ∀ q', s.wq.hosting t = some q' → q' = q ∧ ¬ s.filed t

structure InLine (q : Waitq) (s : St) (ts : List Ptr) : Prop where
  once : ts.Nodup
  waits : ∀ t ∈ ts, InWait q s t
  order : (s.line q).filter (fun t => decide (t ∈ ts)) = ts

/-- The micro-step resumes none of `ts` but by a signal. -/
def Act.passes (ts : List Ptr) : Act → Prop
  | .resume t | .interrupt t | .resumeFast t | .enter t _ | .attr t | .create t => t ∉ ts
  | _ => True

section
variable {D : Diag} {a : Act} {s s' : St} {c t : Ptr} {q : Waitq} {ts : List Ptr}

theorem linked_micro (hI : Inv s) (h : Linked s) (hm : Micro D a s s') : Linked s' := by
  have back : ∀ t k x n q, s.pc = .post t k → k.target = some (x, n) → s.wq.hosting t = some q →
      q = .ctx x := fun t k x n q hpc ht hq => h.aimed t x n q (.inr ⟨k, hpc, ht⟩) hq
  refine ⟨waitqsOk_micro h.ok back hm, fun t x n q hr hq => ?_⟩
  rcases hosting_micro hm hq with hq | rfl
  · rcases hr with hu | ⟨k, hpc, hk⟩
    · rcases uc_cases (t := t) hm with he | ⟨k, b, rfl, he⟩ | ⟨d, k, b, dormant, rfl, he⟩ |
        ⟨-, he⟩ | ⟨poll, -, he⟩ <;> rw [he] at hu
      · exact h.aimed t x n q (.inl hu) hq
      · cases hm with
        | yield hpc hk ht => rw [ht] at hu; cases hu
      · cases hm with
        | sleepYield hpc hk =>
          exact Option.some.inj (hq.symm.trans (hk.queued _ (Call.queue_of_target hu)).1)
      · cases hu
      · cases hu
    · rcases post_micro hm hpc with hp | ⟨poll, -, rfl⟩
      · exact h.aimed t x n q (.inr ⟨k, hp, hk⟩) hq
      · exact h.aimed t x n q (.inl hk) hq
  · -- who enters a queue is in no call yet
    cases hm with
    | append hpc =>
      rcases hr with hu | ⟨k, hp, -⟩
      · rcases hI.ucRun t (by rw [hpc]; rfl) with h0 | h0 <;>
          (rw [show ((s.appended q t).ctx t).uc = (s.ctx t).uc from rfl, h0] at hu; cases hu)
      · rw [show (s.appended q t).pc = .lib t from hpc] at hp
        cases hp

/-! ## The three places -/

/-- The batch loses its first context, when that is switched to. -/
theorem pending_micro (hI : Inv s) (h : SleepInv s) (ha : a.calm s) (hm : Micro D a s s')
    (hs : a ≠ .sift) :
    s'.pending = s.pending ∨ ∃ c, a = .enter c false ∧ s.pending = c :: s'.pending := by
  by_cases hb : a.batch
  swap
  · exact .inl ((sinv_micro hI h ha hm).2 hb)
  cases hm with
  | @enter _ u _ c poll hpc hp hst hs =>
    have hsame : s'.pending = u.pending := by
      rcases enter_cases hs with ⟨-, rfl⟩ | ⟨-, -, rfl⟩ <;> rfl
    cases poll with
    | true => cases hp; exact .inl hsame
    | false => exact .inr ⟨c, rfl, by rw [(h.popped hp).2.2.1, hsame]⟩
  | discard hpc hp hst => exact (h.not_discard ha hp hst).elim
  | sift => exact absurd rfl hs
  | _ => exact absurd hb id

/-- What is not put in the sleep queue keeps its order there. -/
theorem view_micro (h : SleepInv s) (ha : a.calm s) (hm : Micro D a s s') (hs : a ≠ .sift)
    {p : Ptr → Bool} (hp : ∀ c, a.files = some c → p c = false) (k : Nat) :
    (s'.sleepq.view k).filter p = (s.sleepq.view k).filter p := by
  have out : ∀ {c}, s.pc.runs = some c → c ∉ s.sleepq.all := fun hr => (h.running _ hr).1
  -- filed under `d`, out of the old place
  have filed : ∀ {c : Ptr} {d : Nat} {b : Bool}, a.files = some c → c ∉ s.pending →
      s'.sleepq = (s.sleepq.remove (s.ctx c).expireTicks c).enqueue b d c →
      (s'.sleepq.view k).filter p = (s.sleepq.view k).filter p := by
    intro c d b hf hc hq
    rw [hq]
    exact h.queue.view_requeue hc b d (hp c hf) k
  cases hm with
  | sleepYield hpc => exact filed rfl (h.running _ (by rw [hpc]; rfl)).2 rfl
  | @complete _ c _ _ sq _ hpc _ hq =>
    rcases hq with rfl | rfl
    · rfl
    · rw [Sleepq.remove_of_notMem (out (by rw [hpc]; rfl))]
  | @resume _ c | @interrupt _ c =>
    refine filed (c := c) (d := SLEEP_RESUME_NOW) (b := (s.ctx c).prio) rfl ha ?_
    simp [queueNow, sleepqEnqueue, sleepqRemove, setCtx]
  | @resumeFast _ c hpc hf hst =>
    obtain ⟨hall, hpend⟩ := h.polling (c := c) (by rw [hst]; rfl)
    refine filed (c := c) (d := SLEEP_RESUME_NOW) (b := true) rfl hpend ?_
    rw [Sleepq.remove_of_notMem hall]
    exact Sleepq.insertOnce_of_notMem hall
  | @wake _ q c rest =>
    by_cases hf : (s.ctx c).f = none
    · unfold woken
      rw [if_pos hf]
      rfl
    · refine filed (c := c) (d := SLEEP_RESUME_NOW) (b := (s.ctx c).prio) rfl ha ?_
      unfold woken
      rw [if_neg hf]
      simp [queueNow, sleepqEnqueue, sleepqRemove, setCtx, dequeue]
  | @die _ c hpc =>
    rw [show (s.buried c).sleepq = s.sleepq from Sleepq.remove_of_notMem (out (by rw [hpc]; rfl))]
  | discard hpc hpk hst => exact (h.not_discard ha hpk hst).elim
  | @enter _ u _ c poll hpc hpk hst hs =>
    have hq : s'.sleepq = u.sleepq := by
      rcases enter_cases hs with ⟨-, rfl⟩ | ⟨-, -, rfl⟩ <;> rfl
    rw [hq]
    cases hpk with
    | tmp | poll => rfl
    | runq hc ht hr =>
      have hhost : c ∉ s.sleepq.hosts := fun hm =>
        h.queue.notMem_batch (Sleepq.host_mem_all hm) (Sleepq.mem_batch_of_runq (by simp [hr]))
      rw [show (s.popRunq c _).sleepq.view = s.sleepq.view from
        Sleepq.view_setBucket_of_notHost hhost []]
  | sift => exact absurd rfl hs
  | _ => rfl

/-- The context that a micro-step puts into a wait queue or takes out of one. -/
def Act.moves : Act → Option Ptr
  | .append c _ | .removeMe c _ | .wake _ c | .unlink c => some c
  | _ => none

theorem leave_filter {w : WaitQs} {p : Ptr → Bool} (hp : p c = false) (q : Waitq) :
    ((w.leave c).queue q).filter p = (w.queue q).filter p := by
  unfold WaitQs.leave
  split
  · rename_i q' _
    by_cases hq : q = q'
    · subst hq
      simp only [WaitQs.unlink, WaitQs.setQueue, Function.update_self]
      exact Sleepq.filter_erase hp _
    · simp only [WaitQs.unlink, WaitQs.setQueue, Function.update_of_ne hq]
  · rfl

/-- The others keep their order in the wait queues. -/
theorem queueOrder_micro (hm : Micro D a s s') {p : Ptr → Bool}
    (hp : ∀ c, a.moves = some c → p c = false) (q : Waitq) :
    (s'.wq.queue q).filter p = (s.wq.queue q).filter p := by
  cases hm with
  | @append _ c hpc q' =>
    by_cases hq : q = q'
    · subst hq
      simp only [appended, WaitQs.append, WaitQs.setHosting, WaitQs.setQueue, Function.update_self,
        List.filter_append, leave_filter (hp c rfl)]
      simp [hp c rfl]
    · simp only [appended, WaitQs.append, WaitQs.setHosting, WaitQs.setQueue,
        Function.update_of_ne hq, leave_filter (hp c rfl)]
  | @removeMe _ c y =>
    by_cases hq : q = .ctx y
    · subst hq
      simp only [takenOff, WaitQs.unlink, WaitQs.setHosting, WaitQs.setQueue, Function.update_self]
      exact Sleepq.filter_erase (hp c rfl) _
    · simp only [takenOff, WaitQs.unlink, WaitQs.setHosting, WaitQs.setQueue,
        Function.update_of_ne hq]
  | @wake _ q' c rest hq =>
    rw [woken_queue]
    by_cases hqq : q = q'
    · subst hqq
      rw [Function.update_self, hq]
      simp [hp c rfl]
    · rw [Function.update_of_ne hqq]
  | unlink => exact leave_filter (hp _ rfl) q
  | discard hpc hpk => cases hpk <;> rfl
  | enter hpc hpk hst hs =>
    rcases enter_cases hs with ⟨-, rfl⟩ | ⟨-, -, rfl⟩ <;> cases hpk <;> rfl
  | sift hs =>
    obtain ⟨-, -, -, rfl⟩ := sift_cases hs
    rfl
  | _ => rfl

/-! ## The waiters -/

theorem prio_micro (hm : Micro D a s s') (hc : a ≠ .create t) (ha : a ≠ .attr t)
    (hf : (s'.ctx t).f ≠ none) : (s'.ctx t).prio = (s.ctx t).prio := by
  by_cases hx : a.subject = some t
  swap
  · rw [(micro_sameFor hm hx).ctx]
  cases hm with
  | env | gcList | sift => cases hx
  | append | removeMe | complete | quit | unlink => rfl
  | attr => exact absurd (congrArg Act.attr (Option.some.inj hx)) ha
  | rc | expire | drop => cases hx; simp [setCtx]
  | enterLib => cases hx; simp [inLib, setCtx]
  | yield | sleepYield => cases hx; simp [parked, asleep, setCtx]
  | resume | interrupt => cases hx; simp [queueNow, sleepqEnqueue, sleepqRemove, setCtx]
  | resumeFast => cases hx; simp [setCtx]
  | wake =>
    cases hx
    unfold woken
    split
    · rfl
    · simp [queueNow, sleepqEnqueue, sleepqRemove, setCtx]
  | createFree | createNew => exact absurd (congrArg Act.create (Option.some.inj hx)) hc
  | die | discard | release => cases hx; exact absurd (by simp [buried, setCtx, Ctx.cleared]) hf
  | enter hpc hp hst hs =>
    cases hx
    rcases enter_cases hs with ⟨-, rfl⟩ | ⟨-, -, rfl⟩ <;>
      cases hp <;> simp [setCtx, popTmp, popRunq, clearExpire]

theorem woken_hosting (q : Waitq) (t : Ptr) (rest : List Ptr) :
    (s.woken q t rest).wq.hosting t = none := by
  unfold woken
  split <;> simp [dequeue, WaitQs.setHosting, queueNow, sleepqEnqueue, sleepqRemove, setCtx]

theorem InWait.live (hI : Inv s) (h : InWait q s t) : (s.ctx t).f ≠ none :=
  hI.live t (resumable_ne h.resumable).1

theorem inWait_micro (hI : Inv s) (hS : SleepInv s) (ha : a.calm s) (hm : Micro D a s s')
    (hsp : a.passes ts) (ht : t ∈ ts) (h : InWait q s t) : InWait q s' t := by
  have hf := h.live hI
  have hen : ∀ poll, a ≠ .enter t poll := by
    intro poll he
    subst he
    exact hsp ht
  have hne : ∀ {b}, (b = .attr t ∨ b = .create t) → a ≠ b := by
    intro b hb he
    rcases hb with rfl | rfl <;> (subst he; exact hsp ht)
  obtain ⟨h1, -, -⟩ := suspended_micro hI hm h.resumable h.out
    ⟨fun hl => hf (hS.dead t (.inl hl)), fun hl => hf (hS.dead t (.inr hl))⟩ hen
  have hf' : (s'.ctx t).f ≠ none := (inv_micro hI hm).live t (resumable_ne h1).1
  refine ⟨?_, h1, fun hr => ?_, fun q' hq => ?_⟩
  · rw [prio_micro hm (hne (.inr rfl)) (hne (.inl rfl)) hf']
    exact h.normal
  · rcases runs_micro hm hr with hr | ⟨poll, he⟩
    · exact h.out hr
    · exact hen poll he
  · rcases hosting_micro hm hq with hqs | rfl
    · obtain ⟨h2, h3⟩ := h.hosted q' hqs
      refine ⟨h2, fun hm' => ?_⟩
      rcases (filed_micro hS ha hm).came hm' with hm' | hfl
      · exact h3 hm'
      · -- the threads in line are filed by a signal only, which takes them off the queue
        cases hm with
        | sleepYield hpc => cases hfl; exact h.out (by rw [hpc]; rfl)
        | resume | interrupt | resumeFast => cases hfl; exact hsp ht
        | wake =>
          cases hfl
          rw [woken_hosting] at hq
          cases hq
        | _ => cases hfl
    · cases hm with
      | append hpc => exact absurd (by rw [hpc]; rfl) h.out

/-! ## The order -/

/-- A thread in line is filed under `MNTHR_SLEEP_RESUME_NOW` only. -/
theorem InLine.at_key (hS : SleepInv s) (hL : Linked s) (h : InLine q s ts) (ht : t ∈ ts) {k : Nat}
    (hk : t ∈ s.sleepq.view k) : k = SLEEP_RESUME_NOW := by
  have hat := Sleepq.mem_view.1 hk
  have hall := Sleepq.mem_all.2 ⟨k, hat⟩
  have hline : t ∈ s.line q := by
    rw [← h.order] at ht
    exact (List.mem_filter.1 ht).1
  rcases List.mem_append.1 hline with hline | hq
  · rcases List.mem_append.1 hline with hp | hv
    · exact absurd hp (hS.queue.notMem_batch hall)
    · exact Sleepq.at_unique hS.queue.nodup_all (Sleepq.mem_view.1 hv) hat
  · exact absurd (.inl hall) ((h.waits t ht).hosted q ((hL.ok.mem t q).1 hq)).2

/-- The first waiter, of normal priority, goes to the end of the list of
`MNTHR_SLEEP_RESUME_NOW`: nobody moves in the line. -/
theorem InLine.wake {rest : List Ptr} {q' : Waitq} (hI : Inv s) (hS : SleepInv s) (hL : Linked s)
    (h : InLine q s ts) (ht : t ∈ ts) (hc : t ∉ s.pending) (hq : s.wq.queue q' = t :: rest) :
    (s.woken q' t rest).line q = s.line q := by
  have hw := h.waits t ht
  obtain ⟨rfl, hout⟩ := hw.hosted q' ((hL.ok.mem t q').1 (by simp [hq]))
  have hall : t ∉ s.sleepq.all := fun hm => hout (.inl hm)
  have hb : s.sleepq.bucket t = [] :=
    hS.queue.hosted.bucket_nil hall fun hr => hc (Sleepq.mem_batch_of_runq hr)
  have hsq : (s.woken q' t rest).sleepq = s.sleepq.append SLEEP_RESUME_NOW t := by
    unfold woken
    rw [if_neg (hw.live hI)]
    simp [queueNow, sleepqEnqueue, sleepqRemove, setCtx, dequeue, Sleepq.remove_of_notMem hall,
      hw.normal, Sleepq.enqueue]
  rw [line, line, (woken_sleepqOk q' rest hS.queue hc).2.1, hsq, woken_queue,
    Function.update_self, Sleepq.view_append hS.queue.nodup_all hb, Function.update_self, hq]
  simp

/-- A list of lists that are empty but for one. -/
theorem flatMap_one {f : Nat → List Ptr} {k : Nat} : ∀ {l : List Nat}, l.Nodup →
    (∀ i ∈ l, i ≠ k → f i = []) → l.flatMap f = if k ∈ l then f k else []
  | [], _, _ => by simp
  | i :: l, hn, hf => by
    obtain ⟨hi, hn⟩ := List.nodup_cons.1 hn
    rw [List.flatMap_cons, flatMap_one hn fun j hj => hf j (List.mem_cons_of_mem _ hj)]
    by_cases hik : i = k
    · subst hik
      simp [hi]
    · rw [hf i (List.mem_cons_self ..) hik]
      simp [Ne.symm hik]

/-- Of the threads in line, a sift takes those that have been woken, in order. -/
theorem due_filter {p : Ptr → Bool} (n : Nat)
    (hp : ∀ k, k ≠ SLEEP_RESUME_NOW → (s.sleepq.view k).filter p = []) :
    (((s.sleepq.trie.entries.map Prod.fst).filter fun k => decide (k < n)).flatMap
      s.sleepq.view).filter p =
      if SLEEP_RESUME_NOW < n then (s.sleepq.view SLEEP_RESUME_NOW).filter p else [] := by
  have hn : (s.sleepq.trie.entries.map Prod.fst).Nodup := by
    rw [List.nodup_iff_pairwise_ne, List.pairwise_map]
    exact s.sleepq.trie.sorted.imp fun h => Nat.ne_of_lt h
  rw [List.filter_flatMap, flatMap_one (hn.filter _) fun k _ hk => hp k hk]
  by_cases hlt : SLEEP_RESUME_NOW < n
  · by_cases hin : SLEEP_RESUME_NOW ∈ s.sleepq.trie.entries.map Prod.fst
    · rw [if_pos (List.mem_filter.2 ⟨hin, decide_eq_true hlt⟩), if_pos hlt]
    · have hnil : s.sleepq.view SLEEP_RESUME_NOW = [] := by
        refine List.eq_nil_iff_forall_not_mem.2 fun t ht => hin ?_
        obtain ⟨x, hx, -⟩ := Sleepq.mem_view.1 ht
        exact List.mem_map.2 ⟨_, hx, rfl⟩
      simp [hnil]
  · have hout : SLEEP_RESUME_NOW ∉ (s.sleepq.trie.entries.map Prod.fst).filter
        fun k => decide (k < n) := fun hm => hlt (of_decide_eq_true (List.mem_filter.1 hm).2)
    rw [if_neg hlt, if_neg hout]

/-- The batch and the sleep queue after the beginning of a sift. -/
theorem sift_spec (hS : SleepInv s) (hs : s.sift = some s') : s.pending = [] ∧ s'.wq = s.wq ∧
    s'.pending = ((s.sleepq.trie.entries.map Prod.fst).filter fun k => decide (k < s.now)).flatMap
      s.sleepq.view ∧
    ∀ k, s'.sleepq.view k = if k < s.now then [] else s.sleepq.view k := by
  obtain ⟨-, hr, ht, rfl⟩ := sift_cases hs
  have hq := hS.queue
  rw [ht, hr] at hq
  obtain ⟨hb, hv⟩ := hq.view_sift s.now
  refine ⟨by rw [St.pending, ht, hr]; rfl, rfl, ?_, hv⟩
  rw [← hb, ← ht]
  rfl

theorem InLine.only_now (hS : SleepInv s) (hL : Linked s) (h : InLine q s ts) (k : Nat)
    (hk : k ≠ SLEEP_RESUME_NOW) : (s.sleepq.view k).filter (fun t => decide (t ∈ ts)) = [] := by
  refine List.filter_eq_nil_iff.2 fun t ht hm => hk ?_
  exact h.at_key hS hL (of_decide_eq_true hm) ht

theorem InLine.sift (hS : SleepInv s) (hL : Linked s) (h : InLine q s ts) (hs : s.sift = some s') :
    (s'.line q).filter (fun t => decide (t ∈ ts)) =
      (s.line q).filter fun t => decide (t ∈ ts) := by
  obtain ⟨h0, hw, hp, hv⟩ := sift_spec hS hs
  rw [line, line, h0, hw, hp, hv, List.filter_append, List.filter_append,
    due_filter s.now (h.only_now hS hL)]
  split <;> simp

/-- Every micro-step that wakes the threads in line only by a signal keeps them
in line. -/
theorem line_micro (hI : Inv s) (hS : SleepInv s) (hL : Linked s) (ha : a.calm s)
    (hm : Micro D a s s') (hsp : a.passes ts) (h : InLine q s ts) : InLine q s' ts := by
  refine ⟨h.once, fun t ht => inWait_micro hI hS ha hm hsp ht (h.waits t ht), ?_⟩
  by_cases hs : a = .sift
  · subst hs
    cases hm with
    | sift hs => exact (h.sift hS hL hs).trans h.order
  by_cases hw : ∃ q' t, a = .wake q' t ∧ t ∈ ts
  · obtain ⟨q', t, rfl, ht⟩ := hw
    cases hm with
    | wake hq => rw [h.wake hI hS hL ht ha hq]; exact h.order
  -- the micro-step is about none of them
  have hfiles : ∀ c, a.files = some c → decide (c ∈ ts) = false := by
    refine fun c hf => decide_eq_false fun hc => ?_
    cases hm with
    | sleepYield hpc => cases hf; exact (h.waits c hc).out (by rw [hpc]; rfl)
    | resume | interrupt | resumeFast => cases hf; exact hsp hc
    | wake => cases hf; exact hw ⟨_, _, rfl, hc⟩
    | _ => cases hf
  have hmoves : ∀ c, a.moves = some c → decide (c ∈ ts) = false := by
    refine fun c hf => decide_eq_false fun hc => ?_
    cases hm with
    | append hpc | removeMe hpc => cases hf; exact (h.waits c hc).out (by rw [hpc]; rfl)
    | wake => cases hf; exact hw ⟨_, _, rfl, hc⟩
    | unlink hn => cases hf; exact (h.waits c hc).live hI hn
    | _ => cases hf
  have hpend : s'.pending.filter (fun t => decide (t ∈ ts)) =
      s.pending.filter fun t => decide (t ∈ ts) := by
    rcases pending_micro hI hS ha hm hs with hp | ⟨c, rfl, hp⟩
    · rw [hp]
    · have hout : c ∉ ts := hsp
      simp [hp, hout]
  have horder := h.order
  simp only [line, List.filter_append] at horder ⊢
  rw [hpend, view_micro hS ha hm hs hfiles, queueOrder_micro hm hmoves]
  exact horder

end
end Mnthr

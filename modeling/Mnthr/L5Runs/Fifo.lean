import Mnthr.L4Inv.Line
import Mnthr.L4Inv.Untimed
import Mnthr.L5Runs.Sift

/-!
# First come, first served

Threads of normal priority block in one wait queue, in `mnthr_cond_wait` or
`mnthr_join`, and are woken by signals of that queue, or by the exit of the
joined thread. `St.lineUp` records who has blocked there, in order, and has not
been resumed or interrupted since. `fifo_wakeup`: in every run that sets no
context of the current sift batch for resume or interrupt (`Calm`), the first
sift that begins after they have been woken, with a clock behind
`MNTHR_SLEEP_RESUME_NOW`, resumes them in that order.

A thread that interrupts a context of the batch can make it the host of that
key; the context then goes on, sleeps, and keeps everybody in its bucket from
being resumed (`interruptedHost`).
-/
namespace Mnthr
open St

/-- The wait queue in which `mnthr_cond_wait` and `mnthr_join` block. -/
def Blk.waitsIn : Blk → Option Waitq
  | .condWait i => some (.cond i)
  | .join c => some (.ctx c)
  | _ => none

namespace St

/-- Who is resumed or interrupted by the event, other than by a signal of a
wait queue, or gets priority. -/
def disturbs (s : St) (e : Event) : List Ptr :=
  s.starts e ++ s.interrupts e ++
    match e with
    | .next => s.nextPick.toList
    | .pollResume c _ | .call (.setPrio c true) => [c]
    | _ => []

/-- The thread of normal priority that blocks in `q`. -/
def blocks (q : Waitq) (s : St) (e : Event) (s' : St) : Option Ptr :=
  match e, s.pc with
  | .block op _, .user t =>
    if op.waitsIn = some q ∧ s'.pc = .sched ∧ (s.ctx t).prio = false then some t else none
  | _, _ => none

/-- Those who wait, or have been woken, in the order in which they blocked. -/
def lineUp (q : Waitq) (s : St) (e : Event) (s' : St) (ts : List Ptr) : List Ptr :=
  (ts.filter fun t => decide (t ∉ s.disturbs e)) ++ (s.blocks q e s').toList

end St

/-- The machine with the waiters of `q` beside it. -/
def waiters (D : Diag) (q : Waitq) : St × List Ptr → Event → Option (St × List Ptr) :=
  recorded (St.step D) (St.lineUp q)

/-- The threads, the sleep queue and the wait queues are well-formed. -/
structure Orderly (s : St) : Prop where
  inv : Inv s
  sleep : SleepInv s
  linked : Linked s

theorem orderly_init (objs : Objs) (now : Nat) : Orderly (St.init objs now) :=
  ⟨inv_init objs now, sinv_init objs now, linked_init objs now⟩

section
variable {D : Diag} {a : Act} {e : Event} {s s' u v : St} {t c : Ptr} {q : Waitq}
  {ts : List Ptr} {op : Blk} {b : Bool}

theorem linked_step (hI : Inv s) (h : Linked s) (hs : s.step D e = some s') : Linked s' := by
  obtain ⟨s1, hb, hch⟩ := step_micro hI.base hs
  have h1 : Linked s1 := by
    cases hb with
    | same => exact h
    | create hc hm => exact linked_micro hI h hm
  refine (hch.inv (I := fun u => Inv u ∧ Linked u) ?_ ⟨inv_begin hI hb, h1⟩).2
  exact fun a u v _ hm hu => ⟨inv_micro hu.1 hm, linked_micro hu.1 hu.2 hm⟩

theorem orderly_step (h : Orderly s) (hc : Calm s e) (hs : s.step D e = some s') : Orderly s' :=
  ⟨inv_step h.inv hs, sinv_step h.inv h.sleep hc hs, linked_step h.inv h.linked hs⟩

/-! ## Those who stay in line -/

theorem inLine_nil (q : Waitq) (s : St) : InLine q s [] :=
  ⟨.nil, fun t ht => (by cases ht), by simp⟩

theorem InLine.filter (h : InLine q s ts) (p : Ptr → Bool) : InLine q s (ts.filter p) := by
  refine ⟨h.once.filter p, fun t ht => h.waits t (List.mem_filter.1 ht).1, ?_⟩
  have hp : (fun t => decide (t ∈ ts.filter p)) = fun t => p t && decide (t ∈ ts) := by
    funext t
    rw [Bool.eq_iff_iff]
    simp [List.mem_filter, and_comm]
  rw [hp, ← List.filter_filter, h.order]

/-- A change of one context that keeps it suspended and of normal priority. -/
theorem InLine.setCtx (h : InLine q s ts) {x : Ctx} (hst : x.state = (s.ctx c).state)
    (hp : c ∈ ts → x.prio = false) : InLine q (s.setCtx c x) ts := by
  refine ⟨h.once, fun t ht => ?_, h.order⟩
  obtain ⟨h1, h2, h3, h4⟩ := h.waits t ht
  by_cases htc : t = c
  · subst htc
    exact ⟨by simpa [St.setCtx] using hp ht, by simpa [St.setCtx, hst] using h2, h3, h4⟩
  · exact ⟨by simpa [St.setCtx, htc] using h1, by simpa [St.setCtx, htc] using h2, h3, h4⟩

theorem passes_of_may (ha : May s e a) (hn : e.sets = none) :
    a.passes (ts.filter fun t => decide (t ∉ s.disturbs e)) := by
  have out : ∀ {t}, t ∈ s.disturbs e → t ∉ ts.filter fun t => decide (t ∉ s.disturbs e) :=
    fun hd hm => of_decide_eq_true (List.mem_filter.1 hm).2 hd
  cases a with
  | resume t => exact out (List.mem_append_left _ (List.mem_append_left _ ha))
  | interrupt t => exact out (List.mem_append_left _ (List.mem_append_right _ ha))
  | resumeFast t => cases ha; exact out (by simp [disturbs, starts])
  | attr t => cases hn.symm.trans ha
  | create t => cases ha
  | enter t poll =>
    cases poll with
    | true => obtain ⟨rc, rfl, -⟩ := ha; exact out (by simp [disturbs])
    | false => obtain ⟨rfl, hp⟩ := ha; exact out (by simp [disturbs, hp])
  | _ => trivial

/-- A call that sets a priority or a reference count. -/
theorem line_sets (h : InLine q s ts) (hs : s.step D e = some s') (hc : e.sets = some c) :
    InLine q s' (ts.filter fun t => decide (t ∉ s.disturbs e)) := by
  have hl := h.filter fun t => decide (t ∉ s.disturbs e)
  have normal : c ∈ ts.filter (fun t => decide (t ∉ s.disturbs e)) → (s.ctx c).prio = false :=
    fun hm => (hl.waits c hm).normal
  unfold Event.sets at hc
  split at hc <;> cases hc
  all_goals
    simp only [step] at hs
    split at hs
    swap
    · cases hs
    simp only [callOp] at hs
    split at hs <;> cases hs
  · rename_i b _ _
    refine hl.setCtx rfl fun hm => ?_
    cases b with
    | true => simp [disturbs] at hm
    | false => rfl
  · exact hl.setCtx rfl normal
  · exact hl.setCtx rfl normal

/-- Those whom the event leaves alone stay in line. -/
theorem line_stays (hI : Inv s) (hS : SleepInv s) (hL : Linked s) (h : InLine q s ts)
    (hc : Calm s e) (hs : s.step D e = some s') :
    InLine q s' (ts.filter fun t => decide (t ∉ s.disturbs e)) := by
  cases hset : e.sets with
  | some c => exact line_sets h hs hset
  | none =>
    have hl := h.filter fun t => decide (t ∉ s.disturbs e)
    refine (calm_chain (I := fun u => Linked u ∧ InLine q u _) hI hS hc hs (fun s1 hb => ?_)
      fun a u v ha hm hcalm hIu hSu hu => ?_).2.2
    · cases hb with
      | same => exact ⟨hL, hl⟩
      | @create c _ hcr hm =>
        have hdead := creates_dormant hI hS hcr
        exact ⟨linked_micro hI hL hm, line_micro (a := .create c) hI hS hL trivial hm
          (fun hmem => (hl.waits c hmem).live hI hdead) hl⟩
    · have hpass : a.passes (ts.filter fun t => decide (t ∉ s.disturbs e)) :=
        passes_of_may ha hset
      exact ⟨linked_micro hIu hu.1 hm, line_micro hIu hSu hu.1 hcalm hm hpass hu.2⟩

/-! ## Those who get in line -/

/-- A thread that blocks goes to the end of the queue, and nothing else moves. -/
theorem waitsIn_cases (hI : Inv s) (hpc : s.pc = .user t) (hq : op.waitsIn = some q)
    (hs : s.block D b op = some s') (hsched : s'.pc = .sched) :
    s'.wq = s.wq.append q t ∧ s'.sleepq = s.sleepq ∧ s'.pending = s.pending ∧
      (s'.ctx t).prio = (s.ctx t).prio ∧ (s'.ctx t).state.resumable := by
  have hme : s.me = some t := hI.me t (by rw [hpc]; rfl)
  have parks : ∀ {st : CoState} {k : Call}, st.resumable → ((s.setState st).bind fun s1 =>
      s1.joinWaitq q k b) = some s' →
      s'.wq = s.wq.append q t ∧ s'.sleepq = s.sleepq ∧ s'.pending = s.pending ∧
        (s'.ctx t).prio = (s.ctx t).prio ∧ (s'.ctx t).state.resumable := by
    intro st k hst h
    have hme' : ((s.inLib t st).appended q t).me = some t := hme
    have hst' : (((s.inLib t st).appended q t).ctx t).state.resumable := by
      simpa [appended, inLib, setCtx] using hst
    simp only [setState_eq hme, Option.bind_some, joinWaitq, appendMe_eq (show (s.inLib t st).me =
      some t from hme), yieldAs, hme'] at h
    rw [parked_of_swapBack hme' hst' h]
    refine ⟨rfl, rfl, rfl, ?_, ?_⟩
    · simp [St.parked, appended, inLib, setCtx]
    · simpa [St.parked, appended, inLib, setCtx] using hst
  cases op with
  | condWait i => cases hq; exact parks rfl hs
  | join c =>
    cases hq
    simp only [block, St.join] at hs
    split at hs
    · split at hs
      · exact parks rfl hs
      · cases hs
        rw [show (s.returns _).pc = s.pc from rfl, hpc] at hsched
        cases hsched
    · cases hs
  | _ => cases hq

theorem InLine.snoc {l : List Ptr} (h : InLine q s ts) (hl : s.line q = l ++ [t]) (hn : t ∉ l)
    (ht : t ∉ ts) (hw : InWait q s t) : InLine q s (ts ++ [t]) := by
  refine ⟨List.nodup_append.2 ⟨h.once, by simp, ?_⟩, fun x hx => ?_, ?_⟩
  · intro x hx y hy hxy
    rw [List.mem_singleton.1 hy] at hxy
    exact ht (hxy ▸ hx)
  · rcases List.mem_append.1 hx with hx | hx
    · exact h.waits x hx
    · rw [List.mem_singleton.1 hx]
      exact hw
  · have horder := h.order
    rw [hl, List.filter_append] at horder ⊢
    have hlast : [t].filter (fun x => decide (x ∈ ts)) = [] := by simp [ht]
    rw [hlast, List.append_nil] at horder
    have hfirst : l.filter (fun x => decide (x ∈ ts ++ [t])) =
        l.filter fun x => decide (x ∈ ts) := by
      refine List.filter_congr fun x hx => ?_
      have hxt : x ≠ t := by
        intro heq
        subst heq
        exact hn hx
      simp [hxt]
    rw [hfirst, horder]
    simp

theorem blocks_cases (h : s.blocks q e s' = some t) : ∃ op b, e = .block op b ∧ s.pc = .user t ∧
    op.waitsIn = some q ∧ s'.pc = .sched ∧ (s.ctx t).prio = false := by
  unfold St.blocks at h
  split at h
  · rename_i op b x hpc
    split at h
    · rename_i hg
      cases h
      exact ⟨op, b, rfl, hpc, hg⟩
    · cases h
  · cases h

/-- The line after an event. -/
theorem line_step (h : Orderly s) (hl : InLine q s ts) (hc : Calm s e)
    (hs : s.step D e = some s') : InLine q s' (s.lineUp q e s' ts) := by
  have hstay := line_stays h.inv h.sleep h.linked hl hc hs
  unfold St.lineUp
  cases hb : s.blocks q e s' with
  | none => simpa using hstay
  | some t =>
    obtain ⟨op, b, rfl, hpc, hop, hsched, hprio⟩ := blocks_cases hb
    have hr : s.pc.runs = some t := by rw [hpc]; rfl
    obtain ⟨h1, h2, h3, h4, h5⟩ := waitsIn_cases (D := D) (b := b) h.inv hpc hop
      (by
        simp only [step, hpc] at hs
        split at hs
        · exact hs
        · cases hs) hsched
    have hout := h.sleep.running t hr
    have hL := linked_step h.inv h.linked hs
    -- the thread was in no place of the line but the queue, which it has left
    have hqueue : s'.wq.queue q = (s.wq.leave t).queue q ++ [t] := by
      rw [h1]
      simp [WaitQs.append, WaitQs.setQueue, WaitQs.setHosting]
    have hnew : t ∉ (s.wq.leave t).queue q := by
      have hn := hL.ok.nodup q
      rw [hqueue, List.nodup_append] at hn
      exact fun hm => hn.2.2 t hm t (List.mem_singleton.2 rfl) rfl
    refine hstay.snoc (l := s.pending ++ s.sleepq.view SLEEP_RESUME_NOW ++ (s.wq.leave t).queue q)
      ?_ ?_ ?_ ⟨by rw [h4]; exact hprio, h5, by rw [hsched]; simp [Pc.runs], fun q' hq' => ?_⟩
    · rw [line, h2, h3, hqueue, List.append_assoc _ _ [t]]
    · intro hm
      rcases List.mem_append.1 hm with hm | hm
      · rcases List.mem_append.1 hm with hm | hm
        · exact hout.2 hm
        · exact hout.1 (Sleepq.mem_all.2 ⟨_, Sleepq.mem_view.1 hm⟩)
      · exact hnew hm
    · exact fun hm => (hl.waits t (List.mem_filter.1 hm).1).out hr
    · rw [h1] at hq'
      refine ⟨?_, fun hf => ?_⟩
      · simpa [WaitQs.append, WaitQs.setHosting, eq_comm] using hq'
      · rw [St.filed, h2, h3] at hf
        exact hf.elim hout.1 hout.2

/-! ## Signals -/

/-- The waiters of `q` are all woken: by `mnthr_cond_signal_all`, by as many
calls of `mnthr_cond_signal_one`, or by the exit of the joined thread. -/
def Signals (s : St) (q : Waitq) (sig : List Event) : Prop :=
  (∃ i, q = .cond i ∧ (sig = [.call (.condSignalAll i)] ∨
    sig = List.replicate (s.wq.queue q).length (.call (.condSignalOne i)))) ∨
  ∃ c, q = .ctx c ∧ s.pc = .user c ∧ sig = [.exit false]

theorem signalOnes_empty {i : Nat} : ∀ {n : Nat} {s v : St}, (s.wq.queue (.cond i)).length ≤ n →
    exec (St.step D) s (List.replicate n (.call (.condSignalOne i))) = some v →
    v.wq.queue (.cond i) = []
  | 0, s, v, hn, hr => by
    cases hr
    exact List.length_eq_zero_iff.1 (Nat.le_zero.1 hn)
  | n + 1, s, v, hn, hr => by
    obtain ⟨u, hu, hr⟩ := exec_cons hr
    refine signalOnes_empty ?_ hr
    simp only [step] at hu
    split at hu
    swap
    · cases hu
    rcases resumeWaitqOne_cases hu with ⟨hq, rfl⟩ | ⟨t, rest, hq, -, rfl⟩
    · rw [hq]
      exact Nat.zero_le n
    · rw [woken_queue, Function.update_self]
      rw [hq] at hn
      exact Nat.le_of_succ_le_succ hn

theorem signals_empty {sig : List Event} (hI : Inv s) (hsig : Signals s q sig)
    (hr : exec (St.step D) s sig = some v) : v.wq.queue q = [] := by
  rcases hsig with ⟨i, rfl, rfl | rfl⟩ | ⟨c, rfl, hpc, rfl⟩
  · obtain ⟨u, hu, hr⟩ := exec_cons hr
    cases hr
    simp only [step] at hu
    split at hu
    · exact (resumeWaitqAll_micro (D := D) (by simp) hu).2
    · cases hu
  · exact signalOnes_empty (Nat.le_refl _) hr
  · obtain ⟨u, hu, hr⟩ := exec_cons hr
    cases hr
    simp only [step, hpc] at hu
    split at hu
    swap
    · cases hu
    have hst := hI.resumed c (.inl hpc)
    have hme : s.me = some c := hI.me c (by rw [hpc]; rfl)
    simp only [swapBack, hme, hst, CoState.resumable, Bool.false_eq_true, if_false, ne_eq,
      not_true_eq_false, if_true] at hu
    exact pushFree_empties (s := { s with me := none, pc := .sched }) hu

/-- A signal leaves those in line alone. -/
theorem lineUp_signal {sig : List Event} (hsig : Signals s q sig) :
    ∀ e ∈ sig, ∀ s s' ts, St.lineUp q s e s' ts = ts := by
  have keep : ∀ {e}, (∃ i, e = .call (.condSignalAll i)) ∨ (∃ i, e = .call (.condSignalOne i)) ∨
      e = .exit false → ∀ s s' ts, St.lineUp q s e s' ts = ts := by
    intro e he s s' ts
    rcases he with ⟨i, rfl⟩ | ⟨i, rfl⟩ | rfl <;>
      simp [St.lineUp, disturbs, starts, interrupts, St.blocks]
  intro e he
  rcases hsig with ⟨i, -, rfl | rfl⟩ | ⟨c, -, -, rfl⟩
  · exact keep (.inl ⟨i, List.mem_singleton.1 he⟩)
  · exact keep (.inr (.inl ⟨i, List.eq_of_mem_replicate he⟩))
  · exact keep (.inr (.inr (List.mem_singleton.1 he)))

/-! ## The sift -/

theorem filter_of_sublist {us : List Ptr} (h : us.Sublist ts) (hn : ts.Nodup) :
    ts.filter (fun t => decide (t ∈ us)) = us := by
  induction h with
  | slnil => rfl
  | @cons us l a h ih =>
    obtain ⟨ha, hn⟩ := List.nodup_cons.1 hn
    have hau : a ∉ us := fun hm => ha (h.subset hm)
    simpa [hau] using ih hn
  | @cons_cons us l a h ih =>
    obtain ⟨ha, hn⟩ := List.nodup_cons.1 hn
    have hl : l.filter (fun t => decide (t ∈ a :: us)) = l.filter fun t => decide (t ∈ us) := by
      refine List.filter_congr fun x hx => ?_
      have hxa : x ≠ a := by
        intro heq
        subst heq
        exact ha hx
      simp [hxa]
    rw [List.filter_cons_of_pos (by simp), hl, ih hn]

/-- A sift that begins in `s` resumes `ts` in this order: whatever the threads
do in their slices, as long as they set nobody of the batch for resume or
interrupt, those resumed so far come first, and the sift goes on until nobody
is left. -/
def ResumesInOrder (D : Diag) (s : St) (ts : List Ptr) : Prop :=
  ∃ u, s.step D .sift = some u ∧ ∀ es s' h, Along (St.step D) Within u es →
    exec (serves D) (u, ⟨[], []⟩) es = some (s', h) →
      (h.slices.map Prod.fst ++ s'.pending).filter (fun t => decide (t ∈ ts)) = ts ∧
      (s'.pc = .sched → (s'.pending ≠ [] ↔ ∃ v, s'.step D .next = some v))

theorem InLine.resumes (h : Orderly s) (hl : InLine q s ts) (hs : Siftable s)
    (hq : ∀ t ∈ ts, t ∉ s.wq.queue q) (hnow : SLEEP_RESUME_NOW < s.now) :
    ResumesInOrder D s ts := by
  have hqueue : (s.wq.queue q).filter (fun t => decide (t ∈ ts)) = [] :=
    List.filter_eq_nil_iff.2 fun t ht hm => hq t (of_decide_eq_true hm) ht
  have hpend : s.pending = [] := by rw [St.pending, hs.tmp, hs.runq]; rfl
  have horder := hl.order
  rw [line, hpend, List.nil_append, List.filter_append, hqueue, List.append_nil] at horder
  have hexp : s.expired.filter (fun t => decide (t ∈ ts)) = ts := by
    rw [expired, due_filter s.now (hl.only_now h.sleep h.linked), if_pos hnow]
    exact horder
  obtain ⟨u, hu, hcall⟩ := sift_serves (D := D) hs
  refine ⟨u, hu, fun es s' w hw hr => ?_⟩
  have hsift := hcall es s' w hw hr
  refine ⟨?_, hsift.goesOn⟩
  have hslices := congrArg (List.map Prod.fst) hsift.slices
  simp only [List.map_append, List.map_map, Function.comp_def, List.map_id'] at hslices
  rw [hslices, hexp]

end

/-- From any well-formed state in which `ts0` wait in `q`, in every run that
sets nobody of a sift's batch for resume or interrupt: `ts` are those who have
blocked in `q`, in order, and were not resumed or interrupted since. A signal
takes them all off the queue. The next sift resumes those that have been woken
in the order in which they blocked. -/
theorem fifo_wakeup {D : Diag} {q : Waitq} {s0 s : St} {ts0 ts : List Ptr} {es : List Event}
    (h0 : Orderly s0) (hl : InLine q s0 ts0) (hc : Along (St.step D) Calm s0 es)
    (hr : exec (waiters D q) (s0, ts0) es = some (s, ts)) :
    (∀ sig v, Signals s q sig → exec (waiters D q) (s, ts) sig = some v →
      v.1.wq.queue q = [] ∧ v.2 = ts) ∧
    ∀ us : List Ptr, us.Sublist ts → (∀ t ∈ us, t ∉ s.wq.queue q) →
      s.pc = .sched → s.tmp = [] → s.runq = [] →
      (∀ c ∈ s.sleepq.all, c ∈ s.ctxes ∧ (s.ctx c).uc ≠ .gone) → SLEEP_RESUME_NOW < s.now →
      ResumesInOrder D s us := by
  obtain ⟨h, hl⟩ : Orderly s ∧ InLine q s ts := by
    refine exec_inv (I := fun p : St × List Ptr => Orderly p.1 ∧ InLine q p.1 p.2)
      (C := fun p e => Calm p.1 e) (fun p e p' hp hcp hs => ?_) ⟨h0, hl⟩ (along_recorded.1 hc) hr
    obtain ⟨h1, h2⟩ := recorded_step hs
    exact ⟨orderly_step hp.1 hcp h1, by rw [h2]; exact line_step hp.1 hp.2 hcp h1⟩
  refine ⟨fun sig v hsig hv => ⟨signals_empty h.inv hsig (exec_recorded hv), ?_⟩,
    fun us hus hq hpc ht hr hsaved hnow => ?_⟩
  · refine exec_inv (I := fun p : St × List Ptr => p.2 = ts)
      (C := fun _ e => ∀ s s' ts, St.lineUp q s e s' ts = ts) (fun p e p' hp hcp hs => ?_) rfl
      (along_of_forall (lineUp_signal hsig)) hv
    rw [(recorded_step hs).2, hcp]
    exact hp
  · have hus' : InLine q s us := by
      have := hl.filter fun t => decide (t ∈ us)
      rwa [filter_of_sublist hus hl.once] at this
    exact hus'.resumes h (h.sleep.siftable h.inv hpc ht hr hsaved) hq hnow

/-- Threads 0 and 1 block on a condition variable; thread 2 runs. -/
def condWaiters : List Event :=
  [.call (.spawn 0), .call (.spawn 0), .call (.spawn 0), .tick 10, .sift, .next,
    .block (.condWait 0) false, .next, .block (.condWait 0) false, .next]

/-- Thread 2 starts thread 3, wakes both and yields. -/
def wakesBoth : List Event :=
  condWaiters ++ [.call (.spawn 0), .call (.condSignalAll 0), .block .yield false]

/-- What the run of `es` records of the condition variable 0. -/
def waitersRun (es : List Event) : Option (St × List Ptr) :=
  exec (waiters .sample (.cond 0)) (St.init .sample 0, []) es

theorem fifo_wakeup_condWaiters :
    (∃ s v, waitersRun condWaiters = some (s, [0, 1]) ∧
      exec (waiters .sample (.cond 0)) (s, [0, 1]) [.call (.condSignalAll 0)] = some (v, [0, 1]) ∧
      v.wq.queue (.cond 0) = []) ∧
    ∃ s, waitersRun wakesBoth = some (s, [0, 1]) ∧ ResumesInOrder .sample s [0, 1] := by
  constructor
  · obtain ⟨⟨s, ts⟩, hs⟩ := Option.isSome_iff_exists.1
      (show (waitersRun condWaiters).isSome by decide)
    obtain rfl : ts = [0, 1] := fact_of_map hs (f := Prod.snd) (by decide)
    have hsig := (fifo_wakeup (orderly_init .sample 0) (inLine_nil (.cond 0) _)
      (along_of_decide (by decide)) hs).1 [.call (.condSignalAll 0)]
    have hrun := fact_of_map hs (a := true) (f := fun p =>
      (exec (waiters .sample (.cond 0)) p [.call (.condSignalAll 0)]).isSome) (by decide)
    obtain ⟨⟨v, us⟩, hv⟩ := Option.isSome_iff_exists.1 hrun
    obtain ⟨h1, rfl⟩ := hsig (v, us) (.inl ⟨0, rfl, .inl rfl⟩) hv
    exact ⟨s, v, hs, hv, h1⟩
  · obtain ⟨⟨s, ts⟩, hs⟩ := Option.isSome_iff_exists.1
      (show (waitersRun wakesBoth).isSome by decide)
    obtain rfl : ts = [0, 1] := fact_of_map hs (f := Prod.snd) (by decide)
    have hall : s.sleepq.all = [3, 0, 1, 2] :=
      fact_of_map hs (f := fun p => p.1.sleepq.all) (by decide)
    have hsaved : ∀ c ∈ [3, 0, 1, 2], c ∈ s.ctxes ∧ (s.ctx c).uc ≠ .gone := by
      simpa using fact_of_map hs (a := true) (f := fun p =>
        [3, 0, 1, 2].all fun c => decide (c ∈ p.1.ctxes ∧ (p.1.ctx c).uc ≠ .gone)) (by decide)
    have hq : s.wq.queue (.cond 0) = [] :=
      fact_of_map hs (f := fun p => p.1.wq.queue (.cond 0)) (by decide)
    refine ⟨s, hs, (fifo_wakeup (orderly_init .sample 0) (inLine_nil (.cond 0) _)
      (along_of_decide (by decide)) hs).2 [0, 1] (.refl _) (by rw [hq]; simp)
      (fact_of_map hs (f := fun p => p.1.pc) (by decide))
      (fact_of_map hs (f := fun p => p.1.tmp) (by decide))
      (fact_of_map hs (f := fun p => p.1.runq) (by decide)) (by rw [hall]; exact hsaved) ?_⟩
    rw [show s.now = 10 from fact_of_map hs (f := fun p => p.1.now) (by decide)]
    decide

/-- Thread 2 interrupts thread 3, which the sift is about to resume. -/
def interruptedHost : List Event :=
  [.call (.spawn 0), .call (.spawn 0), .call (.spawn 0), .call (.spawn 0), .tick 10, .sift, .next,
    .block (.condWait 0) false, .next, .block (.condWait 0) false, .next, .call (.setInterrupt 3)]

/-- Thread 2 wakes threads 0 and 1 and sleeps, and so does thread 3. -/
def hostSleeps : List Event :=
  [.call (.condSignalAll 0), .block (.sleep .msec 100) false, .next,
    .block (.sleep .msec 100) false]

/-- When the waiters are woken, the sleep queue holds thread 3, under its
`expire_ticks`. The next sift resumes none of them. -/
theorem fifo_interruptedHost :
    (∃ s, waitersRun interruptedHost = some (s, [0, 1]) ∧
      s.sleepq.trie.entries = [(SLEEP_RESUME_NOW, 3)] ∧ s.sleepq.bucket 3 = [] ∧
      (s.ctx 3).expireTicks = SLEEP_RESUME_NOW) ∧
    ∃ s, waitersRun (interruptedHost ++ hostSleeps) = some (s, [0, 1]) ∧
      s.wq.queue (.cond 0) = [] ∧ SLEEP_RESUME_NOW < s.now ∧
      (s.step .sample .sift).map St.pending = some [] ∧ ¬ ResumesInOrder .sample s [0, 1] := by
  constructor
  · obtain ⟨⟨s, ts⟩, hs⟩ := Option.isSome_iff_exists.1
      (show (waitersRun interruptedHost).isSome by decide)
    obtain rfl : ts = [0, 1] := fact_of_map hs (f := Prod.snd) (by decide)
    exact ⟨s, hs, fact_of_map hs (f := fun p => p.1.sleepq.trie.entries) (by decide),
      fact_of_map hs (f := fun p => p.1.sleepq.bucket 3) (by decide),
      fact_of_map hs (f := fun p => (p.1.ctx 3).expireTicks) (by decide)⟩
  · obtain ⟨⟨s, ts⟩, hs⟩ := Option.isSome_iff_exists.1
      (show (waitersRun (interruptedHost ++ hostSleeps)).isSome by decide)
    obtain rfl : ts = [0, 1] := fact_of_map hs (f := Prod.snd) (by decide)
    have hnone : (s.step .sample .sift).map St.pending = some [] := fact_of_map hs
      (f := fun p => (p.1.step .sample .sift).map St.pending) (by decide)
    refine ⟨s, hs, fact_of_map hs (f := fun p => p.1.wq.queue (.cond 0)) (by decide), ?_, hnone,
      fun h => ?_⟩
    · rw [show s.now = 10 from fact_of_map hs (f := fun p => p.1.now) (by decide)]
      decide
    · -- the sift takes nobody out
      obtain ⟨u, hu, hcall⟩ := h
      rw [hu, Option.map_some, Option.some.injEq] at hnone
      have := (hcall [] u ⟨[], []⟩ trivial rfl).1
      rw [hnone] at this
      cases this

end Mnthr

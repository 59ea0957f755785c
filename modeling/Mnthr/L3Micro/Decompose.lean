import Mnthr.L2Sched.Footprint
import Mnthr.L3Micro.Micro

/-!
# Every step is a chain of micro-steps

An event that creates a thread does so first (`Begin`); `May s e` bounds the
micro-steps it can make after that, in the vocabulary of `L2Sched.Footprint`.
`step_micro` is the result; the lemmas before it follow the functions of the
library one by one.

`Base` is what the machine itself guarantees about the running thread: `me`
points to it, and its state is `CO_STATE_RESUMED` while it is not on its way
to a yield.
-/
namespace Mnthr
open St

/-- The micro-steps an event may make. -/
def May (s : St) (e : Event) : Act → Prop
  | .rc c v => v ≠ 0 ∨ c ∈ s.rcWrites e
  | .resume t => t ∈ s.starts e
  | .resumeFast t => e = .pollFast t
  | .interrupt t => t ∈ s.interrupts e
  | .wake q t => (q, t) ∈ s.wakes e
  | .create _ => False
  | .enter c true | .discard c true => ∃ rc, e = .pollResume c rc ∧ (s.ctx c).f ≠ none
  | .enter c false | .discard c false => e = .next ∧ s.nextPick = some c
  | .die c => e = .exit false ∧ s.pc = .user c
  | .quit c => e = .exit true ∧ s.pc = .user c
  | .release c | .drop c => e = .call .gc ∧ c ∈ s.gcReleased
  | .gcList => e = .call .gc
  | .enterLib _ st => (s.suspends e).map Call.coState = some st
  | .expire _ _ => ∃ x v b, e = .block (.setInterruptAndJoinWithTimeout x v) b
  | .append _ q => (s.suspends e).bind Call.queue = some q
  | .yield _ k b => b = e.eintr ∧ s.suspends e = some k ∧ s.deadlineOf e = none
  | .sleepYield _ d k b dormant => b = e.eintr ∧ s.suspends e = some k ∧ s.deadlineOf e = some d ∧
    (dormant = true → ∃ x v, e = .block (.peek x v) b ∧ (s.ctx x).state = .dormant)
  | .sift => e = .sift
  | .attr c => e.sets = some c
  | .complete c k _ => (∃ b, e = .cont b) ∧ s.pc = .post c k
  | .removeMe c _ => (∃ b, e = .cont b) ∧ ∃ k, s.pc = .post c k
  | _ => True

/-- The state after the event has created its thread, if it creates one. -/
inductive Begin (D : Diag) (s : St) (e : Event) : St → Prop where
  | same (hc : s.creates e = none) : Begin D s e s
  | create {c : Ptr} {s1 : St} (hc : s.creates e = some c) (hm : Micro D (.create c) s s1) :
    Begin D s e s1

/-- Only the thread that the event creates is touched. -/
theorem Begin.sameFor {D : Diag} {s s1 : St} {e : Event} {x : Ptr} (hb : Begin D s e s1)
    (hx : s.creates e ≠ some x) : SameFor x s s1 := by
  cases hb with
  | same => exact ⟨rfl, Iff.rfl, id, id, rfl⟩
  | create hc hm => exact micro_sameFor hm fun h => hx (hc.trans h)

/-- `s'` is reached from `s` by the micro-steps of `e`. -/
def Chain (D : Diag) (s : St) (e : Event) (s' : St) : Prop :=
  ∃ s1, Begin D s e s1 ∧ Steps (Micro D) (May s e) s1 s'

structure Base (s : St) : Prop where
  me : ∀ c, s.pc.runs = some c → s.me = some c
  resumed : ∀ c, s.pc = .user c ∨ (∃ k, s.pc = .post c k) → (s.ctx c).state = .resumed

section
variable {D : Diag} {s s' : St} {c : Ptr} {q : Waitq}

/-! ## Setting contexts for resume -/

theorem setResume_micro
    (hst : (s.ctx c).state = .dormant ∨ (s.ctx c).state = .signalSubscribe ∨ (s.ctx c).uc = .start)
    (h : s.setResume c = some s') : Steps (Micro D) (· = .resume c) s s' := by
  unfold setResume at h
  split at h
  · cases h
  · rename_i hne
    split at h
    · cases h; exact .refl _
    · rename_i hf
      cases h
      exact .one rfl (.resume hne hf hst)

theorem setInterrupt_micro (h : s.setInterrupt D c = some s') :
    Steps (Micro D) (· = .interrupt c) s s' := by
  unfold setInterrupt at h
  split at h
  · cases h
  · rename_i hne
    split at h
    · cases h; exact .refl _
    · rename_i hf
      cases h
      exact .one rfl (.interrupt hne hf)

theorem mem_notMe (h : s.setInterrupt D c = some s') : c ∈ s.notMe c := by
  unfold setInterrupt at h
  split at h
  · cases h
  · rename_i hne
    simp [notMe, hne]

theorem woken_frame (q : Waitq) (t : Ptr) (rest : List Ptr) :
    (s.woken q t rest).ctxes = s.ctxes ∧ (s.woken q t rest).freeList = s.freeList ∧
      (s.woken q t rest).gcRest = s.gcRest ∧ (s.woken q t rest).pc = s.pc ∧
      (s.woken q t rest).me = s.me := by
  unfold woken
  split <;> exact ⟨rfl, rfl, rfl, rfl, rfl⟩

/-- The fields of a context that `set_resume` does not write. -/
theorem woken_keeps {α : Type} (get : Ctx → α)
    (hget : ∀ y st d, get { y with state := st, expireTicks := d } = get y) (q : Waitq) (t : Ptr)
    (rest : List Ptr) (x : Ptr) : get ((s.woken q t rest).ctx x) = get (s.ctx x) := by
  unfold woken
  split
  · rfl
  · by_cases hx : x = t
    · subst hx
      simpa [queueNow, sleepqEnqueue, sleepqRemove, setCtx, dequeue] using hget (s.ctx x) _ _
    · simp [queueNow, sleepqEnqueue, sleepqRemove, setCtx, dequeue, hx]

theorem woken_f (q : Waitq) (t : Ptr) (rest : List Ptr) (x : Ptr) :
    ((s.woken q t rest).ctx x).f = (s.ctx x).f := woken_keeps Ctx.f (fun _ _ _ => rfl) q t rest x

theorem woken_queue (q : Waitq) (t : Ptr) (rest : List Ptr) :
    (s.woken q t rest).wq.queue = Function.update s.wq.queue q rest := by
  unfold woken
  split <;> rfl

theorem resumeWaitqOne_cases (h : s.resumeWaitqOne q = some s') :
    (s.wq.queue q = [] ∧ s' = s) ∨
    ∃ t rest, s.wq.queue q = t :: rest ∧ s.me ≠ some t ∧ s' = s.woken q t rest := by
  unfold resumeWaitqOne at h
  split at h
  · rename_i hq; cases h; exact .inl ⟨hq, rfl⟩
  · rename_i t rest hq
    refine .inr ⟨t, rest, hq, ?_⟩
    unfold setResume at h
    split at h
    · cases h
    · rename_i hne
      refine ⟨hne, ?_⟩
      unfold woken
      split at h
      · rename_i hf
        cases h
        rw [if_pos (show (s.ctx t).f = none from hf)]
      · rename_i hf
        cases h
        rw [if_neg (show ¬ (s.ctx t).f = none from hf)]
        rfl

theorem resumeWaitqOne_micro (hx : ∀ x, q = .ctx x → (s.ctx x).f = none)
    (h : s.resumeWaitqOne q = some s') :
    Steps (Micro D) (fun a => ∃ t ∈ (s.wq.queue q).take 1, a = .wake q t) s s' := by
  rcases resumeWaitqOne_cases h with ⟨-, rfl⟩ | ⟨t, rest, hq, hne, rfl⟩
  · exact .refl _
  · exact .one ⟨t, by simp [hq], rfl⟩ (.wake hq hne hx)

/-- One pass of the loop per thread in the queue: it empties the queue, and
wakes nobody who was not in it. -/
theorem resumeWaitqN_micro : ∀ {n : Nat} {s s' : St}, (s.wq.queue q).length = n →
    (∀ x, q = .ctx x → (s.ctx x).f = none) → resumeWaitqN n s q = some s' →
    Steps (Micro D) (fun a => ∃ t ∈ s.wq.queue q, a = .wake q t) s s' ∧ s'.wq.queue q = []
  | 0, s, s', hn, _, h => by
    cases h
    exact ⟨.refl _, List.length_eq_zero_iff.1 hn⟩
  | n + 1, s, s', hn, hx, h => by
    obtain ⟨s1, h1, h2⟩ := Option.bind_eq_some_iff.1 h
    rcases resumeWaitqOne_cases h1 with ⟨hq, -⟩ | ⟨t, rest, hq, hne, rfl⟩
    · rw [hq] at hn; cases hn
    · have hq1 : (s.woken q t rest).wq.queue q = rest := by rw [woken_queue, Function.update_self]
      have hf : ∀ x, q = .ctx x → ((s.woken q t rest).ctx x).f = none := fun x e =>
        (woken_f q t rest x).trans (hx x e)
      obtain ⟨hs, he⟩ := resumeWaitqN_micro (by rw [hq1]; simpa [hq] using hn) hf h2
      refine ⟨.head ⟨t, by simp [hq], rfl⟩ (.wake hq hne hx) (hs.mono ?_), he⟩
      intro a hx
      obtain ⟨u, hu, rfl⟩ := hx
      exact ⟨u, by rw [hq]; exact List.mem_cons_of_mem _ (hq1 ▸ hu), rfl⟩

theorem resumeWaitqAll_micro (hx : ∀ x, q = .ctx x → (s.ctx x).f = none)
    (h : s.resumeWaitqAll q = some s') :
    Steps (Micro D) (fun a => ∃ t ∈ s.wq.queue q, a = .wake q t) s s' ∧ s'.wq.queue q = [] :=
  resumeWaitqN_micro rfl hx h

/-! ## Clearing contexts -/

theorem setQueue_nil {w : WaitQs} (h : w.queue q = []) : w.setQueue q [] = w := by
  unfold WaitQs.setQueue
  rw [← h, Function.update_eq_self]

theorem condFini_micro (hx : ∀ x, q = .ctx x → (s.ctx x).f = none) (h : s.condFini q = some s') :
    Steps (Micro D) (fun a => ∃ t ∈ s.wq.queue q, a = .wake q t) s s' := by
  obtain ⟨s1, h1, rfl⟩ := Option.map_eq_some_iff.1 h
  obtain ⟨hs, he⟩ := resumeWaitqAll_micro (D := D) hx h1
  rw [setQueue_nil he]
  exact hs

/-- `mnthr_ctx_finalize` once the fields are cleared. -/
theorem finalize_micro (h : s.finalize c = some s') :
    Steps (Micro D) (fun a => (∃ t ∈ s.wq.queue (.ctx c), a = .wake (.ctx c) t) ∨ a = .unlink c)
      (s.setCtx c (s.ctx c).cleared) s' := by
  obtain ⟨s2, h2, rfl⟩ := Option.map_eq_some_iff.1 h
  have hf : ((s.setCtx c (s.ctx c).cleared).ctx c).f = none := by simp [setCtx, Ctx.cleared]
  obtain ⟨hs, he⟩ := resumeWaitqAll_micro (D := D)
    (fun x e => by cases e; exact hf) h2
  have hf2 : (s2.ctx c).f = none := by
    refine hs.inv (I := fun u => (u.ctx c).f = none) ?_ hf
    rintro a u v ⟨t, -, rfl⟩ hr hu
    cases hr
    rw [woken_f]; exact hu
  rw [setQueue_nil he]
  exact (hs.mono fun a ha => .inl ha).snoc (.inr rfl) (.unlink hf2)

def St.withFree (s : St) (l : List Ptr) : St := { s with freeList := l }

/-- Waking threads does not look at `free_list`. -/
theorem resumeWaitqOne_withFree (l : List Ptr) (s : St) :
    (s.withFree l).resumeWaitqOne q = (s.resumeWaitqOne q).map (St.withFree · l) := by
  unfold resumeWaitqOne
  have hq : (s.withFree l).wq.queue q = s.wq.queue q := rfl
  rw [hq]
  cases s.wq.queue q with
  | nil => rfl
  | cons t rest =>
    by_cases hme : s.me = some t
    · simp [setResume, dequeue, withFree, hme]
    · by_cases hf : (s.ctx t).f = none
      · simp [setResume, dequeue, withFree, hme, hf]
      · simp only [setResume, dequeue, withFree, hme, hf, if_false, Option.map_some]
        rfl

theorem resumeWaitqN_withFree (l : List Ptr) : ∀ (n : Nat) (s : St),
    resumeWaitqN n (s.withFree l) q = (resumeWaitqN n s q).map (St.withFree · l)
  | 0, _ => rfl
  | n + 1, s => by
    simp only [resumeWaitqN, resumeWaitqOne_withFree]
    cases resumeWaitqOne s q with
    | none => rfl
    | some s1 => exact resumeWaitqN_withFree l n s1

theorem resumeWaitqN_freeList : ∀ {n : Nat} {s s' : St}, resumeWaitqN n s q = some s' →
    s'.freeList = s.freeList
  | 0, s, s', h => by cases h; rfl
  | n + 1, s, s', h => by
    obtain ⟨s1, h1, h2⟩ := Option.bind_eq_some_iff.1 h
    rw [resumeWaitqN_freeList h2]
    rcases resumeWaitqOne_cases h1 with ⟨-, rfl⟩ | ⟨t, rest, -, -, rfl⟩
    · rfl
    · unfold woken; split <;> rfl

/-- `sleepq_remove` and `push_free_ctx`, with the context put in `free_list`
before its joiners are woken. -/
theorem pushFree_micro (h : (s.sleepqRemove c).pushFree c = some s') :
    Steps (Micro D) (fun a => (∃ t ∈ s.wq.queue (.ctx c), a = .wake (.ctx c) t) ∨ a = .unlink c)
      (s.buried c) s' := by
  obtain ⟨s1, h1, rfl⟩ := Option.map_eq_some_iff.1 h
  obtain ⟨s2, h2, rfl⟩ := Option.map_eq_some_iff.1 h1
  have hfr : s2.freeList = s.freeList := (resumeWaitqN_freeList (q := .ctx c) h2).trans rfl
  have hw := resumeWaitqN_withFree (q := .ctx c) (s.freeList ++ [c])
    (s.wq.queue (.ctx c)).length ((s.sleepqRemove c).setCtx c (s.ctx c).cleared)
  refine finalize_micro (s := (s.sleepqRemove c).withFree (s.freeList ++ [c])) ?_
  refine Option.map_eq_some_iff.2 ⟨s2.withFree (s.freeList ++ [c]), ?_, ?_⟩
  · exact hw.trans (congrArg (Option.map (St.withFree · (s.freeList ++ [c]))) h2)
  · simp [withFree, hfr]

/-! ## Reclaiming contexts -/

/-- What `mnthr_gc` leaves alone while it releases contexts: links, and the
order of the contexts it keeps. Queues only lose members. -/
structure GcFrame (cs : List Ptr) (s u : St) : Prop where
  freeList : u.freeList = s.freeList
  gcRest : u.gcRest = s.gcRest
  queue : ∀ q t, t ∈ u.wq.queue q → t ∈ s.wq.queue q
  ctxes : ∀ l : List Ptr, (∀ c ∈ cs, c ∉ l) → l.Sublist s.ctxes → l.Sublist u.ctxes

/-- The micro-steps of releasing `c`. -/
def GcAct (s : St) (c : Ptr) (a : Act) : Prop :=
  a = .release c ∨ (∃ t ∈ s.wq.queue (.ctx c), a = .wake (.ctx c) t) ∨ a = .unlink c ∨ a = .drop c

theorem leave_subset {w : WaitQs} {t : Ptr} (h : t ∈ (w.leave c).queue q) : t ∈ w.queue q := by
  unfold WaitQs.leave at h
  split at h
  · rename_i q' _
    by_cases hq : q = q'
    · subst hq
      simp only [WaitQs.unlink, WaitQs.setQueue, Function.update_self] at h
      exact List.mem_of_mem_erase h
    · simpa only [WaitQs.unlink, WaitQs.setQueue, Function.update_of_ne hq] using h
  · exact h

theorem gcFrame_micro {cs : List Ptr} {a : Act} {u v : St} {s0 : St} (hc : c ∈ cs)
    (ha : GcAct s0 c a) (hr : Micro D a u v) (h : GcFrame cs s u) : GcFrame cs s v := by
  obtain ⟨h1, h2, h3, h4⟩ := h
  rcases ha with rfl | ⟨t, -, rfl⟩ | rfl | rfl
  · cases hr; exact ⟨h1, h2, h3, h4⟩
  · cases hr with
    | wake hq _ _ =>
      refine ⟨by unfold woken; split <;> exact h1, by unfold woken; split <;> exact h2, ?_,
        by unfold woken; split <;> exact h4⟩
      intro q' t' ht'
      rw [woken_queue] at ht'
      by_cases hqq : q' = .ctx c
      · subst hqq
        rw [Function.update_self] at ht'
        exact h3 _ _ (by rw [hq]; exact List.mem_cons_of_mem _ ht')
      · rw [Function.update_of_ne hqq] at ht'
        exact h3 _ _ ht'
  · cases hr
    exact ⟨h1, h2, fun q' t' ht' => h3 _ _ (leave_subset ht'), h4⟩
  · cases hr
    refine ⟨h1, h2, h3, fun l hl hs => ?_⟩
    have := (h4 l hl hs).erase c
    rwa [List.erase_of_not_mem (hl c hc)] at this

theorem ctxFini_micro (hl : s.linked c) (h : s.ctxFini c = some s') :
    Steps (Micro D) (GcAct s c) s s' := by
  unfold ctxFini at h
  split at h
  · cases h
  · rename_i hr
    obtain ⟨s1, h1, rfl⟩ := Option.map_eq_some_iff.1 h
    have hfin := finalize_micro (D := D) h1
    -- the context stays cleared, and nobody else starts to run
    have hend : (s1.ctx c).f = none ∧ s1.pc = s.pc := by
      refine hfin.inv (I := fun u => (u.ctx c).f = none ∧ u.pc = s.pc) ?_ ?_
      · rintro a u v (⟨t, -, rfl⟩ | rfl) hm hu
        · cases hm
          exact ⟨by rw [woken_f]; exact hu.1, by unfold woken; split <;> exact hu.2⟩
        · cases hm; exact hu
      · exact ⟨by simp [setCtx, Ctx.cleared], rfl⟩
    refine .head (.inl rfl) (.release hl hr) ((hfin.mono ?_).snoc (.inr (.inr (.inr rfl)))
      (.drop (by rw [hend.2]; exact hr) hend.1))
    rintro a (⟨t, ht, rfl⟩ | rfl)
    · exact .inr (.inl ⟨t, ht, rfl⟩)
    · exact .inr (.inr (.inl rfl))

theorem ctxFiniAll_micro : ∀ {cs : List Ptr} {s s' : St}, (∀ c ∈ cs, s.linked c) →
    ctxFiniAll cs s = some s' →
    Steps (Micro D) (fun a => ∃ c ∈ cs, GcAct s c a) s s' ∧ GcFrame cs s s'
  | [], s, s', _, h => by
    cases h
    exact ⟨.refl _, rfl, rfl, fun _ _ h => h, fun _ _ h => h⟩
  | c :: cs, s, s', hl, h => by
    obtain ⟨s1, h1, h2⟩ := Option.bind_eq_some_iff.1 h
    have hm := ctxFini_micro (D := D) (hl c (List.mem_cons_self ..)) h1
    have hF : GcFrame (c :: cs) s s1 :=
      hm.inv (fun a u v ha hr hu => gcFrame_micro (List.mem_cons_self ..) ha hr hu)
        ⟨rfl, rfl, fun _ _ h => h, fun _ _ h => h⟩
    have hl1 : ∀ x ∈ cs, s1.linked x := fun x hx => by
      have := hl x (List.mem_cons_of_mem _ hx)
      rwa [linked, ← hF.freeList, ← hF.gcRest] at this
    obtain ⟨hm2, hF2⟩ := ctxFiniAll_micro hl1 h2
    refine ⟨(hm.mono fun a ha => ⟨c, List.mem_cons_self .., ha⟩).trans (hm2.mono ?_), ?_⟩
    · intro a hx
      obtain ⟨x, hx, ha⟩ := hx
      refine ⟨x, List.mem_cons_of_mem _ hx, ?_⟩
      rcases ha with ha | ⟨t, ht, ha⟩ | ha | ha
      · exact .inl ha
      · exact .inr (.inl ⟨t, hF.queue _ _ ht, ha⟩)
      · exact .inr (.inr (.inl ha))
      · exact .inr (.inr (.inr ha))
    · refine ⟨hF2.freeList.trans hF.freeList, hF2.gcRest.trans hF.gcRest,
        fun q t h => hF.queue q t (hF2.queue q t h), fun l hc hs => ?_⟩
      exact hF2.ctxes l (fun x hx => hc x (List.mem_cons_of_mem _ hx)) (hF.ctxes l hc hs)

/-- `mnthr_gc` releases contexts, then keeps the pinned ones in its lists. -/
theorem gc_cases (h : s.gc = some s') : ∃ s1,
    Steps (Micro D) (May s (.call .gc)) s s1 ∧ (∀ c ∈ s.gcPinned, s1.linked c) ∧
      s.gcPinned.Sublist s1.ctxes ∧
      s' = { s1 with freeList := s.gcPinned.take 1, gcRest := s.gcPinned.drop 1 } := by
  unfold gc at h
  split at h
  · obtain ⟨s1, h1, rfl⟩ := Option.map_eq_some_iff.1 h
    have hlink : ∀ c ∈ s.gcSeen, s.linked c := fun c hc => by
      simpa using (List.mem_filter.1 hc).2
    obtain ⟨hm, hF⟩ := ctxFiniAll_micro (D := D)
      (fun c hc => hlink c (List.mem_filter.1 hc).1) h1
    refine ⟨s1, hm.mono ?_, ?_, ?_, rfl⟩
    · rintro a ⟨c, hc, rfl | ⟨t, ht, rfl⟩ | rfl | rfl⟩
      · exact ⟨rfl, hc⟩
      · refine List.mem_flatMap.2 ⟨c, hc, List.mem_map.2 ⟨t, ht, rfl⟩⟩
      · trivial
      · exact ⟨rfl, hc⟩
    · intro c hc
      have := hlink c (List.mem_filter.1 hc).1
      rwa [linked, ← hF.freeList, ← hF.gcRest] at this
    · refine hF.ctxes _ ?_ (List.filter_sublist.trans List.filter_sublist)
      intro c hc hp
      have h0 := (List.mem_filter.1 hc).2
      have h1 := (List.mem_filter.1 hp).2
      simp at h0 h1
      omega
  · cases h

theorem gc_micro (h : s.gc = some s') : Steps (Micro D) (May s (.call .gc)) s s' := by
  obtain ⟨s1, hm, hl, hs, rfl⟩ := gc_cases (D := D) h
  refine hm.snoc (a := .gcList) rfl (.gcList ?_ ?_)
  · rwa [List.take_append_drop]
  · rwa [List.take_append_drop]

/-! ## Creating threads -/

theorem vnew_popFree {f : Nat} {r : Ptr × St} (h : vnew s.popFree f = some r) :
    r.1 = s.popFree.1 ∧ Micro D (.create r.1) s r.2 := by
  unfold vnew at h
  simp only at h
  split at h
  · cases h
  · rename_i hid
    cases h
    refine ⟨rfl, ?_⟩
    unfold popFree at hid ⊢
    split at hid
    · rename_i c hc
      simp only [setCtx, Function.update_self, ne_eq, not_not] at hid
      have := Micro.createFree (D := D) hc hid f ((s.coId + 1).bmod (2 ^ 32))
      simpa only [setCtx, Function.update_self, Function.update_idem] using this
    · have := Micro.createNew (D := D) (s := s) f ((s.coId + 1).bmod (2 ^ 32))
      simpa only [ctxNew, setCtx, Function.update_self, Function.update_idem] using this

theorem vnew_ctxNew {f : Nat} {r : Ptr × St} (h : vnew s.ctxNew f = some r) :
    r.1 = s.brk ∧ Micro D (.create r.1) s r.2 := by
  unfold vnew at h
  simp only at h
  split at h
  · cases h
  · cases h
    refine ⟨rfl, ?_⟩
    have := Micro.createNew (D := D) (s := s) f ((s.coId + 1).bmod (2 ^ 32))
    simpa only [ctxNew, setCtx, Function.update_self, Function.update_idem] using this

/-- Every creation moves `co_id` by one, around the end of the integers. -/
theorem vnew_coId {p r : Ptr × St} {f : Nat} (h : vnew p f = some r) (hp : p.2.coId = s.coId) :
    r.2.coId = (s.coId + 1).bmod (2 ^ 32) := by
  unfold vnew at h
  simp only at h
  split at h
  · cases h
  · cases h
    rw [hp]

theorem popFree_coId : s.popFree.2.coId = s.coId := by
  unfold popFree
  split <;> rfl

theorem run_micro (h : s.run c = some s') : Steps (Micro D) (· = .resume c) s s' := by
  unfold run at h
  split at h
  · cases h
  · rename_i hst
    exact setResume_micro (.inl (not_not.1 hst)) h

theorem spawn_micro {p : Ptr × St} {f : Nat} {e : Event} (hc : s.creates e = some c)
    (hs : c ∈ s.starts e) (hv : ∀ r, vnew p f = some r → r.1 = c ∧ Micro D (.create r.1) s r.2)
    (h : spawn p f = some s') : Chain D s e s' := by
  obtain ⟨r, h1, h2⟩ := Option.bind_eq_some_iff.1 h
  obtain ⟨rfl, hm⟩ := hv r h1
  refine ⟨r.2, .create hc hm, (run_micro h2).mono ?_⟩
  intro a heq
  subst heq
  exact hs

/-! ## Calls that do not yield -/

theorem subscriber_mem {g : Nat} {o : Ptr} (ho : s.objs.owner g = some o)
    (hst : (s.ctx o).state = .signalSubscribe) : o ∈ s.subscriber g := by
  simp [subscriber, ho, hst]

theorem signalSend_micro {g : Nat} (h : s.signalSend g = some s') :
    Steps (Micro D) (fun a => ∃ o ∈ s.subscriber g, a = .resume o) s s' := by
  unfold signalSend at h
  split at h
  · cases h; exact .refl _
  · rename_i o ho
    split at h
    · cases h
    · split at h
      · rename_i hst
        exact (setResume_micro (.inr (.inl hst)) h).mono fun a ha => ⟨o, subscriber_mem ho hst, ha⟩
      · cases h; exact .refl _

/-- Setting the code of a subscriber and resuming it. -/
theorem signalRc_micro {g : Nat} {o : Ptr} {v : Int} (ho : s.objs.owner g = some o)
    (hst : (s.ctx o).state = .signalSubscribe)
    (h : (s.setCtx o { s.ctx o with rc := v }).setResume o = some s') :
    Steps (Micro D) (fun a => ∃ o ∈ s.subscriber g, a = .rc o v ∨ a = .resume o) s s' :=
  .head ⟨o, subscriber_mem ho hst, .inl rfl⟩ (.rc o v (.inr (.inl (by simp [hst]))))
    ((setResume_micro (.inr (.inl (by simpa [setCtx] using hst))) h).mono fun a ha =>
      ⟨o, subscriber_mem ho hst, .inr ha⟩)

theorem may_env {e : Event} : May s e .env := trivial

theorem env_micro {e : Event} (o : Objs) (r : Option Ret) :
    Steps (Micro D) (May s e) s { s with objs := o, ret := r } :=
  .one (a := .env) trivial (.env o s.now r)

theorem wakesAll_may {e : Event} (he : ∀ t ∈ s.wq.queue q, (q, t) ∈ s.wakes e) {a : Act}
    (ha : ∃ t ∈ s.wq.queue q, a = .wake q t) : May s e a := by
  obtain ⟨t, ht, rfl⟩ := ha
  exact he t ht

theorem condFini_may {e : Event} (hq : ∀ x, q ≠ .ctx x)
    (he : ∀ t ∈ s.wq.queue q, (q, t) ∈ s.wakes e) (h : s.condFini q = some s') :
    Steps (Micro D) (May s e) s s' :=
  (condFini_micro (fun x e => absurd e (hq x)) h).mono fun _ => wakesAll_may he

theorem signalOne_may {e : Event} (hq : ∀ x, q ≠ .ctx x)
    (he : ∀ t ∈ (s.wq.queue q).take 1, (q, t) ∈ s.wakes e) (h : s.resumeWaitqOne q = some s') :
    Steps (Micro D) (May s e) s s' := by
  refine (resumeWaitqOne_micro (fun x e => absurd e (hq x)) h).mono ?_
  intro a hx
  obtain ⟨t, ht, rfl⟩ := hx
  exact he t ht

theorem wakesOne_mem {t : Ptr} (ht : t ∈ (s.wq.queue q).take 1) : (q, t) ∈ s.wakesOne q :=
  List.mem_map.2 ⟨t, ht, rfl⟩

theorem wakesAll_mem {t : Ptr} (ht : t ∈ s.wq.queue q) : (q, t) ∈ s.wakesAll q :=
  List.mem_map.2 ⟨t, ht, rfl⟩

theorem new_micro {e : Event} {r : Ptr × St} (hc : s.creates e = some r.1)
    (hm : Micro D (.create r.1) s r.2) : Chain D s e r.2 :=
  ⟨r.2, .create hc hm, .refl _⟩

theorem callOp_micro {op : Op} (h : s.callOp D op = some s') : Chain D s (.call op) s' := by
  cases op with
  | new f =>
    obtain ⟨r, h1, rfl⟩ := Option.map_eq_some_iff.1 h
    obtain ⟨he, hm⟩ := vnew_popFree (D := D) h1
    exact new_micro (by rw [he]; rfl) hm
  | newSig f =>
    obtain ⟨r, h1, rfl⟩ := Option.map_eq_some_iff.1 h
    obtain ⟨he, hm⟩ := vnew_ctxNew (D := D) h1
    exact new_micro (by rw [he]; rfl) hm
  | spawn f => exact spawn_micro rfl (List.mem_singleton.2 rfl) (fun r hr => vnew_popFree hr) h
  | spawnSig f => exact spawn_micro rfl (List.mem_singleton.2 rfl) (fun r hr => vnew_ctxNew hr) h
  | run c =>
    refine ⟨s, .same rfl, ?_⟩
    simp only [callOp] at h
    split at h
    · have hd : (s.ctx c).state = .dormant := by
        by_contra hd
        rw [run, if_pos hd] at h
        cases h
      refine (run_micro h).mono ?_
      intro a heq
      subst heq
      simp [May, starts, hd]
    · cases h
  | setInterrupt c =>
    refine ⟨s, .same rfl, ?_⟩
    simp only [callOp] at h
    split at h
    · refine (setInterrupt_micro h).mono ?_
      intro a heq
      subst heq
      exact mem_notMe h
    · cases h
  | setPrio c _ | incabac c | decabac c =>
    refine ⟨s, .same rfl, ?_⟩
    simp only [callOp] at h
    split at h
    · cases h; exact .one (a := .attr c) rfl (.attr c _ _)
    · cases h
  | setRetval rv =>
    refine ⟨s, .same rfl, ?_⟩
    obtain ⟨c, hc, rfl⟩ := Option.map_eq_some_iff.1 h
    exact (env_micro s.objs _).snoc (a := .rc c rv) (.inr (by simp [rcWrites, hc]))
      (.rc c rv (.inr (.inr hc)))
  | signalInit g c =>
    refine ⟨s, .same rfl, ?_⟩
    simp only [callOp] at h
    split at h
    · cases h; exact env_micro _ _
    · cases h
  | signalFini g =>
    refine ⟨s, .same rfl, ?_⟩
    cases h; exact env_micro _ _
  | signalSend g =>
    refine ⟨s, .same rfl, ?_⟩
    refine (signalSend_micro h).mono ?_
    intro a hx
    obtain ⟨o, ho, rfl⟩ := hx
    exact ho
  | signalError g rc =>
    refine ⟨s, .same rfl, ?_⟩
    simp only [callOp, signalError] at h
    split at h
    · cases h; exact .refl _
    · rename_i o ho
      split at h
      · cases h
      · split at h
        · rename_i hst
          refine (signalRc_micro ho hst h).mono ?_
          rintro a ⟨x, hx, rfl | rfl⟩
          · exact .inr hx
          · exact hx
        · cases h; exact .refl _
  | condSignalOne i =>
    refine ⟨s, .same rfl, ?_⟩
    exact signalOne_may (by simp) (fun t => wakesOne_mem) h
  | condSignalAll i =>
    refine ⟨s, .same rfl, ?_⟩
    exact (resumeWaitqAll_micro (by simp) h).1.mono fun _ => wakesAll_may fun t => wakesAll_mem
  | condFini i =>
    refine ⟨s, .same rfl, ?_⟩
    exact condFini_may (by simp) (fun t => wakesAll_mem) h
  | semaTryAcquire i | rwlockTryAcquireRead i | rwlockTryAcquireWrite i =>
    refine ⟨s, .same rfl, ?_⟩
    simp only [callOp] at h
    split at h <;> (cases h; exact env_micro _ _)
  | semaRelease i =>
    refine ⟨s, .same rfl, ?_⟩
    simp only [callOp, semaRelease] at h
    split at h
    · obtain ⟨s1, h1, rfl⟩ := Option.map_eq_some_iff.1 h
      exact (signalOne_may (by simp) (fun t => wakesOne_mem) h1).snoc (a := .env) trivial
        (.env _ s1.now s1.ret)
    · cases h
  | semaFini i | isemaFini i | rwlockFini i =>
    refine ⟨s, .same rfl, ?_⟩
    obtain ⟨s1, h1, rfl⟩ := Option.map_eq_some_iff.1 h
    exact (condFini_may (by simp) (fun t => wakesAll_mem) h1).snoc (a := .env) trivial
      (.env _ s1.now s1.ret)
  | isemaAcquire i =>
    refine ⟨s, .same rfl, ?_⟩
    simp only [callOp, isemaAcquire] at h
    split at h
    · refine .head may_env (.env _ s.now s.ret)
        ((resumeWaitqOne_micro (by simp) h).mono ?_)
      intro a hx
      obtain ⟨t, ht, rfl⟩ := hx
      exact wakesOne_mem (s := s) ht
    · cases h
  | isemaRelease i =>
    refine ⟨s, .same rfl, ?_⟩
    simp only [callOp, isemaRelease] at h
    split at h
    · cases h; exact env_micro _ _
    · cases h
  | rwlockReleaseRead i =>
    refine ⟨s, .same rfl, ?_⟩
    simp only [callOp, rwlockReleaseRead] at h
    split at h
    · cases h
    · split at h
      · refine .head may_env (.env _ s.now s.ret) ((resumeWaitqOne_micro (by simp) h).mono ?_)
        intro a hx
        obtain ⟨t, ht, rfl⟩ := hx
        exact wakesOne_mem (s := s) ht
      · cases h; exact env_micro _ _
  | rwlockReleaseWrite i =>
    refine ⟨s, .same rfl, ?_⟩
    simp only [callOp, rwlockReleaseWrite] at h
    split at h
    · refine .head may_env (.env _ s.now s.ret)
        ((resumeWaitqAll_micro (by simp) h).1.mono ?_)
      intro a hx
      obtain ⟨t, ht, rfl⟩ := hx
      exact wakesAll_mem (s := s) ht
    · cases h
  | gc =>
    refine ⟨s, .same rfl, ?_⟩
    exact gc_micro h
  | pollFail b =>
    refine ⟨s, .same rfl, ?_⟩
    obtain ⟨c, hc, rfl⟩ := Option.map_eq_some_iff.1 h
    refine .one (a := .rc c _) (.inl ?_) (.rc c _ (.inr (.inr hc)))
    split
    · exact D.ne_zero 130 4
    · exact D.ne_zero 130 2

end
end Mnthr

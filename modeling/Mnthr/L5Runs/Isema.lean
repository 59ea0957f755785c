import Mnthr.L4Inv.Locks

/-!
# Inverted semaphores

`mnthr_inverted_sema_acquire` wakes one waiter, whatever the count is. Once the
count is `n` every waiter may go on, so of several waiters all but one can stay
in the queue for good (`isema_secondWaiter`). `isema_progress`: they do not, if
every acquire that brings the count to `n` finds at most one of them in the
queue.

The acquire asserts `i <= n` before it increments, so the count leaves its
range exactly when it is called at `n` (`isema_bound`).
-/
namespace Mnthr
open St

section
variable {D : Diag} {s s' : St} {e : Event} {t : Ptr} {i : Nat} {b : Bool}

/-! ## One inverted semaphore -/

/-- What an event does to the count of inverted semaphore `i`. -/
theorem isema_step (h : StepEffect s e s') (he : e ≠ .call (.isemaFini i)) :
    s'.objs.isemaN i = s.objs.isemaN i ∧
    ((e = .call (.isemaAcquire i) ∧ s'.objs.isemaI i = s.objs.isemaI i + 1) ∨
      (e = .call (.isemaRelease i) ∧ s'.objs.isemaI i = s.objs.isemaI i - 1) ∨
      s'.objs.isemaI i = s.objs.isemaI i) := by
  have same : s'.objs.isemaN = s.objs.isemaN → s'.objs.isemaI = s.objs.isemaI →
      s'.objs.isemaN i = s.objs.isemaN i ∧
      ((e = .call (.isemaAcquire i) ∧ s'.objs.isemaI i = s.objs.isemaI i + 1) ∨
        (e = .call (.isemaRelease i) ∧ s'.objs.isemaI i = s.objs.isemaI i - 1) ∨
        s'.objs.isemaI i = s.objs.isemaI i) :=
    fun h1 h2 => ⟨by rw [h1], .inr (.inr (by rw [h2]))⟩
  cases h.objs with
  | same hg hv ho => exact same (by rw [ho]) (by rw [ho])
  | @grant g hg hv hf ho => cases g <;> exact same (by rw [ho]; rfl) (by rw [ho]; rfl)
  | @give g hg hv ha ho => cases g <;> exact same (by rw [ho]; rfl) (by rw [ho]; rfl)
  | owner hg hv ho => exact same (by rw [ho]; rfl) (by rw [ho]; rfl)
  | semaFini he' ho | rwlockFini he' ho => exact same (by rw [ho]; rfl) (by rw [ho]; rfl)
  | @isemaAcquire j he' ha ho =>
    by_cases hj : i = j
    · subst hj
      exact ⟨by rw [ho]; rfl, .inl ⟨he', by rw [ho]; simp [Objs.setIsemaI]⟩⟩
    · exact ⟨by rw [ho]; rfl, .inr (.inr (by rw [ho]; simp [Objs.setIsemaI, hj]))⟩
  | @isemaRelease j he' ho =>
    by_cases hj : i = j
    · subst hj
      exact ⟨by rw [ho]; rfl, .inr (.inl ⟨he', by rw [ho]; simp [Objs.setIsemaI]⟩)⟩
    · exact ⟨by rw [ho]; rfl, .inr (.inr (by rw [ho]; simp [Objs.setIsemaI, hj]))⟩
  | @isemaFini j he' ho =>
    have hj : i ≠ j := by
      intro heq
      subst heq
      exact he he'
    exact ⟨by rw [ho]; simp [Objs.isemaFini, hj],
      .inr (.inr (by rw [ho]; simp [Objs.isemaFini, hj]))⟩

theorem isemaLoop_cases (h : s.isemaLoop i b = some s') :
    (s.objs.isemaI i < s.objs.isemaN i ∧ s'.objs = s.objs) ∨ s'.wq = s.wq := by
  unfold isemaLoop at h
  split at h
  · rename_i hlt
    exact .inl ⟨hlt, (Inert.condWait h).objs⟩
  · obtain ⟨c, -, rfl⟩ := Option.map_eq_some_iff.1 h
    exact .inr rfl

/-- The call and the rest of `mnthr_inverted_sema_wait`. -/
theorem isemaWait_cases {k : Call} (hs : s.step D e = some s') (hk : s.suspends e = some k)
    (hq : k.queue = some (.isema i)) :
    (s.objs.isemaI i < s.objs.isemaN i ∧ s'.objs = s.objs) ∨ s'.wq = s.wq := by
  obtain rfl : k = .isemaWait i := by cases k <;> cases hq; rfl
  cases e with
  | block op b =>
    cases op with
    | isemaWait j =>
      cases hk
      simp only [step] at hs
      split at hs
      · split at hs
        · simp only [St.block, St.isemaWait] at hs
          split at hs
          · exact isemaLoop_cases hs
          · cases hs
        · cases hs
      · cases hs
    | join c | setInterruptAndJoin c | setInterruptAndJoinWithTimeout c v =>
      simp only [suspends] at hk
      split at hk <;> cases hk
    | signalErrorAndJoin j v =>
      obtain ⟨o, -, ho⟩ := Option.map_eq_some_iff.1 hk
      cases ho
    | _ => cases hk
  | cont b =>
    obtain ⟨hcall, -⟩ := Option.filter_eq_some_iff.1 hk
    simp only [step] at hs
    split at hs
    swap
    · cases hs
    rename_i c k hpc
    rw [hpc] at hcall
    cases hcall
    split at hs
    swap
    · cases hs
    simp only [cont] at hs
    split at hs
    · obtain ⟨d, -, rfl⟩ := Option.map_eq_some_iff.1 hs
      exact .inr rfl
    · exact isemaLoop_cases hs
  | _ => cases hk

/-- A thread enters the queue only while the count is below `n`. -/
theorem isema_joins (hI : UntimedInv s) (hp : Untimed s e) (hs : s.step D e = some s')
    (ht : t ∈ s'.wq.queue (.isema i)) : t ∈ s.wq.queue (.isema i) ∨
      (s.objs.isemaI i < s.objs.isemaN i ∧ s'.objs = s.objs) := by
  have hI' := untimed_step hI hp hs
  rcases joins_step hI.inv hs ((hI'.tidy.ok.mem t _).1 ht) with h | ⟨k, hk, hkq⟩
  · exact .inl ((hI.tidy.ok.mem t _).2 h)
  rcases isemaWait_cases hs hk hkq with h | h
  · exact .inr h
  · rw [h] at ht
    exact .inl ht

theorem isemaAcquire_queue {rest : List Ptr} (h : s.step D (.call (.isemaAcquire i)) = some s')
    (hq : s.wq.queue (.isema i) = t :: rest) : s'.wq.queue (.isema i) = rest := by
  simp only [step, callOp, St.isemaAcquire] at h
  split at h
  · split at h
    · exact resumeWaitqOne_queue h hq
    · cases h
  · cases h

/-- No interrupts and timed waits, and an acquire that brings the count to `n`
finds at most one thread in the queue. -/
def OneWaiter (i : Nat) (s : St) (e : Event) : Prop :=
  Untimed s e ∧ (e = .call (.isemaAcquire i) → s.objs.isemaN i ≤ s.objs.isemaI i + 1 →
    (s.wq.queue (.isema i)).length ≤ 1)

instance (s : St) (e : Event) : Decidable (OneWaiter i s e) := by unfold OneWaiter; infer_instance

theorem released_step (hI : UntimedInv s) (hp : OneWaiter i s e) (hs : s.step D e = some s')
    (h : s.objs.isemaN i ≤ s.objs.isemaI i → s.wq.queue (.isema i) = [])
    (hn : s'.objs.isemaN i ≤ s'.objs.isemaI i) : s'.wq.queue (.isema i) = [] := by
  have hfini : e ≠ .call (.isemaFini i) := by
    intro heq
    subst heq
    cases hp.1.1
  obtain ⟨hN, hcase⟩ := isema_step (step_effect hI.inv.base hs) hfini
  -- nobody enters the queue, and nobody is left in it
  have quiet : s.objs.isemaN i ≤ s.objs.isemaI i → s'.wq.queue (.isema i) = [] := by
    intro hle
    refine List.eq_nil_iff_forall_not_mem.2 fun t ht => ?_
    rcases isema_joins hI hp.1 hs ht with ht | ⟨hlt, -⟩
    · rw [h hle] at ht; cases ht
    · omega
  rcases hcase with ⟨rfl, hi⟩ | ⟨rfl, hi⟩ | hi
  · have hlen := hp.2 rfl (by omega)
    cases hq : s.wq.queue (.isema i) with
    | nil =>
      refine List.eq_nil_iff_forall_not_mem.2 fun t ht => ?_
      rcases isema_joins hI hp.1 hs ht with ht | ⟨-, ho⟩
      · rw [hq] at ht; cases ht
      · rw [ho] at hi; omega
    | cons t rest =>
      rw [isemaAcquire_queue hs hq]
      rw [hq, List.length_cons] at hlen
      exact List.eq_nil_of_length_eq_zero (by omega)
  · exact quiet (by omega)
  · exact quiet (by omega)

end

/-! ## Runs -/

/-- The threads `l` were taken off the wait queue of inverted semaphore `i` and
have yet to test it again. -/
structure IsemaProgress (i : Nat) (s : St) (l : List Ptr) : Prop where
  nodup : l.Nodup
  pending : ∀ t ∈ l, Signalled (.isema i) s t
  stranded : s.objs.isemaN i ≤ s.objs.isemaI i → s.wq.queue (.isema i) ≠ [] → l ≠ []

theorem isema_progress {D : Diag} {objs : Objs} {now i : Nat} {es : List Event} {s : St}
    {l : List Ptr} (hr : exec (signals D (.isema i)) (St.init objs now, []) es = some (s, l))
    (hc : Along (St.step D) (OneWaiter i) (St.init objs now) es) :
    IsemaProgress i s l ∧ (s.objs.isemaN i ≤ s.objs.isemaI i → s.wq.queue (.isema i) = []) := by
  have hS := signalled_exec hr (along_mono (fun _ _ h => h.1) hc)
  obtain ⟨-, hq⟩ := exec_inv (I := fun u => UntimedInv u ∧
      (u.objs.isemaN i ≤ u.objs.isemaI i → u.wq.queue (.isema i) = []))
    (fun u e u' hu hp hs => ⟨untimed_step hu.1 hp.1 hs, released_step hu.1 hp hs hu.2⟩)
    ⟨untimed_init objs now, fun _ => rfl⟩ hc (exec_recorded hr)
  exact ⟨⟨hS.nodup, hS.all, fun hn hne => absurd (hq hn) hne⟩, hq⟩

/-- Threads 0 and 1 wait, and thread 2 acquires the one that they wait for. -/
def twoIsemaWaiters : List Event :=
  [.call (.spawn 0), .call (.spawn 0), .call (.spawn 0), .tick 10, .sift, .next,
    .block (.isemaWait 0) false, .next, .block (.isemaWait 0) false, .next,
    .call (.isemaAcquire 0)]

/-- Thread 0 is woken and returns; nothing will wake thread 1. -/
theorem isema_secondWaiter : ∃ s l,
    exec (signals .sample (.isema 0)) (St.init .sample 0, [])
      (twoIsemaWaiters ++ [.block .yield false, .sift, .next, .cont false]) = some (s, l) ∧
    Along (St.step .sample) Untimed (St.init .sample 0)
      (twoIsemaWaiters ++ [.block .yield false, .sift, .next, .cont false]) ∧
    s.objs.isemaN 0 ≤ s.objs.isemaI 0 ∧ s.wq.queue (.isema 0) = [1] ∧ l = [] := by
  obtain ⟨⟨s, l⟩, hs⟩ := Option.isSome_iff_exists.1
    (show (exec (signals .sample (.isema 0)) (St.init .sample 0, [])
      (twoIsemaWaiters ++ [.block .yield false, .sift, .next, .cont false])).isSome by decide)
  refine ⟨s, l, hs, along_of_decide (by decide), ?_,
    fact_of_map hs (f := fun p => p.1.wq.queue (.isema 0)) (by decide),
    fact_of_map hs (f := fun p => p.2) (by decide)⟩
  rw [fact_of_map hs (f := fun p => p.1.objs.isemaN 0) (a := 1) (by decide),
    fact_of_map hs (f := fun p => p.1.objs.isemaI 0) (a := 1) (by decide)]

/-- One thread waits, and is woken by the acquire that it waits for. -/
def oneWaiter : List Event :=
  [.call (.spawn 0), .call (.spawn 0), .tick 10, .sift, .next, .block (.isemaWait 0) false, .next,
    .call (.isemaAcquire 0)]

theorem isema_progress_oneWaiter : ∃ s l,
    exec (signals .sample (.isema 0)) (St.init .sample 0, []) oneWaiter = some (s, l) ∧
    s.objs.isemaI 0 = 1 ∧ l = [0] ∧ IsemaProgress 0 s l := by
  obtain ⟨⟨s, l⟩, hs⟩ := Option.isSome_iff_exists.1
    (show (exec (signals .sample (.isema 0)) (St.init .sample 0, []) oneWaiter).isSome by decide)
  refine ⟨s, l, hs, fact_of_map hs (f := fun p => p.1.objs.isemaI 0) (by decide),
    fact_of_map hs (f := fun p => p.2) (by decide), ?_⟩
  exact (isema_progress hs (along_of_decide (by decide))).1

/-! ## The range of the count -/

/-- What `mnthr_inverted_sema_acquire` and `mnthr_inverted_sema_wait` assert on
entry. -/
def IsemaInRange (i : Nat) (s : St) : Prop :=
  0 ≤ s.objs.isemaI i ∧ s.objs.isemaI i ≤ s.objs.isemaN i

/-- Nobody acquires inverted semaphore `i` when its count is `n`. -/
def AcquiresBelow (i : Nat) (s : St) (e : Event) : Prop :=
  e = .call (.isemaAcquire i) → s.objs.isemaI i < s.objs.isemaN i

instance (i : Nat) (s : St) (e : Event) : Decidable (AcquiresBelow i s e) := by
  unfold AcquiresBelow; infer_instance

section
variable {D : Diag} {s s' : St} {e : Event} {i : Nat}

theorem isemaAcquire_objs (hs : s.step D (.call (.isemaAcquire i)) = some s') :
    s'.objs = s.objs.setIsemaI i (s.objs.isemaI i + 1) := by
  simp only [step] at hs
  split at hs
  · simp only [callOp, St.isemaAcquire] at hs
    split at hs
    · exact (Inert.resumeWaitqOne hs).objs
    · cases hs
  · cases hs

theorem isemaRelease_objs (hs : s.step D (.call (.isemaRelease i)) = some s') :
    0 ≤ s.objs.isemaI i - 1 ∧ s'.objs = s.objs.setIsemaI i (s.objs.isemaI i - 1) := by
  simp only [step] at hs
  split at hs
  · simp only [callOp, St.isemaRelease] at hs
    split at hs
    · rename_i ha
      cases hs
      exact ⟨ha.1, rfl⟩
    · cases hs
  · cases hs

/-- The assertion of the acquire admits a count of `n`, and the increment then
leaves the range; the release asserts after it has decremented. -/
theorem inRange_step (hI : Inv s) (hs : s.step D e = some s') (hf : e ≠ .call (.isemaFini i))
    (h : IsemaInRange i s) : IsemaInRange i s' ↔ AcquiresBelow i s e := by
  obtain ⟨h0, hn⟩ := h
  by_cases ha : e = .call (.isemaAcquire i)
  · subst ha
    have ho := isemaAcquire_objs hs
    have hI' : s'.objs.isemaI i = s.objs.isemaI i + 1 := by rw [ho]; simp [Objs.setIsemaI]
    have hN' : s'.objs.isemaN i = s.objs.isemaN i := by rw [ho]; rfl
    constructor
    · intro h' _
      have := h'.2
      omega
    · intro hlt
      have := hlt rfl
      exact ⟨by omega, by omega⟩
  · refine ⟨fun _ he => absurd he ha, fun _ => ?_⟩
    obtain ⟨hN', hcase⟩ := isema_step (step_effect hI.base hs) hf
    rcases hcase with ⟨he, -⟩ | ⟨he, hi⟩ | hi
    · exact absurd he ha
    · subst he
      have := (isemaRelease_objs hs).1
      exact ⟨by omega, by omega⟩
    · exact ⟨by omega, by omega⟩

end

/-- From `mnthr_inverted_sema_init` on, in every run without
`mnthr_inverted_sema_fini`. -/
theorem isema_bound {D : Diag} {objs : Objs} {now i : Nat} {es : List Event} {s : St}
    (hn : 0 ≤ objs.isemaN i) (h0 : objs.isemaI i = 0) (hr : Reaches D objs now es s)
    (hf : ∀ e ∈ es, e ≠ .call (.isemaFini i)) :
    (∀ pre post u, es = pre ++ post → Reaches D objs now pre u → IsemaInRange i u) ↔
      Along (St.step D) (AcquiresBelow i) (St.init objs now) es := by
  have hinit : IsemaInRange i (St.init objs now) := by
    show 0 ≤ objs.isemaI i ∧ objs.isemaI i ≤ objs.isemaN i
    omega
  exact exec_inv_iff (J := Inv) (B := fun _ e => e ≠ .call (.isemaFini i))
    (fun _ _ _ hI hs => inv_step hI hs) (fun _ _ _ hI hb h hs => inRange_step hI hs hb h)
    (inv_init objs now) hinit (along_of_forall hf) hr

def acquires (k : Nat) : List Event := List.replicate k (.call (.isemaAcquire 0))

theorem isema_bound_once : ∃ s, Reaches .sample .sample 0 (acquires 1) s ∧ IsemaInRange 0 s := by
  obtain ⟨s, hs⟩ := Option.isSome_iff_exists.1 (show (sampleRun (acquires 1)).isSome by decide)
  refine ⟨s, hs, ?_⟩
  exact (isema_bound (i := 0) (by decide) (by decide) hs (by decide)).2
    (along_of_decide (by decide)) _ [] s (by simp) hs

/-- An inverted semaphore that waits for one unit is acquired twice: both calls
pass their assertion, the count is then 2, and the next wait or acquire fails. -/
theorem isema_overrun : ∃ s, Reaches .sample .sample 0 (acquires 2) s ∧
    s.objs.isemaN 0 = 1 ∧ s.objs.isemaI 0 = 2 ∧ ¬ IsemaInRange 0 s ∧
    s.step .sample (.call (.isemaAcquire 0)) = none := by
  obtain ⟨s, hs⟩ := Option.isSome_iff_exists.1 (show (sampleRun (acquires 2)).isSome by decide)
  have hN := sampleRun_fact hs (f := fun s => s.objs.isemaN 0) (a := 1) (by decide)
  have hI := sampleRun_fact hs (f := fun s => s.objs.isemaI 0) (a := 2) (by decide)
  refine ⟨s, hs, hN, hI, ?_, ?_⟩
  · intro h
    have := h.2
    omega
  · exact Option.not_isSome_iff_eq_none.1
      (by rw [sampleRun_fact hs (f := fun s => (s.step .sample (.call (.isemaAcquire 0))).isSome)
        (a := false) (by decide)]; decide)

end Mnthr

import Mnthr.L5Runs.WaitEvents

/-!
# The assertion of `set_resume_fast`

`assert(ctx->expire_ticks >= MNTHR_SLEEP_RESUME_NOW)` (src/mnthr.c:1477) asks
that the thread has a deadline. The sift clears `expire_ticks` of every thread
it resumes (src/poller.c:166, 205), and a descriptor wait sets none. The history
`takenOut` says of each thread whether the sift was the last to touch its
deadline; `set_resume_fast_asserts_iff`: exactly then the assertion fails, which
is the ordinary way into `mnthr_wait_for_events`.
-/
namespace Mnthr
open KevSt

/-- The threads that the sift has taken out of the sleep queue, and that nothing
has given a deadline since. -/
def takenOut (s : KevSt) (e : KevEvent) (_ : KevSt) (g : Ptr → Bool) : Ptr → Bool :=
  match e with
  | .spawn t | .wake t | .interrupt t => Function.update g t false
  | .resume t => Function.update g t true
  | .block _ (some d) => s.me.elim g fun t => Function.update g t (decide (d = SLEEP_UNDEFINED))
  | .entry =>
    match s.batch with
    | [] => g
    | (_, kev) :: _ =>
      if (s.thr kev.udata).state = .otherPoller then Function.update g kev.udata false else g
  | _ => g

/-- The next entry is for `t`, blocked in `mnthr_wait_for_events`: it is handed to
`set_resume_fast`, which comes to its assertion. -/
structure CallsFast (s : KevSt) (t : Ptr) : Prop where
  entry : s.me = none ∧ ∃ x ∈ s.batch.head?, x.2.udata = t
  state : (s.thr t).state = .otherPoller
  live : (s.thr t).live

section
variable {D : KevBuild} {s s' : KevSt} {e : KevEvent} {t u : Ptr} {w : KevWait} {g : Ptr → Bool}

/-- What the history says of a thread. -/
def Tracks (x : KevThr) (out : Bool) : Prop :=
  x.live → (x.expireTicks < SLEEP_RESUME_NOW ↔ out = true)

theorem Tracks.queued {x : KevThr} (h : x.live → x.expireTicks = SLEEP_RESUME_NOW) :
    Tracks x false := by
  intro hl
  rw [h hl]
  decide

theorem Tracks.cleared {x : KevThr} (h : x.live → x.expireTicks = SLEEP_UNDEFINED) :
    Tracks x true := by
  intro hl
  rw [h hl]
  decide

/-- The rest of a wait leaves the deadline alone. -/
theorem waitEnd_ticks (h : s.waitEnd D t w = some s') :
    (s'.thr t).expireTicks = (s.thr t).expireTicks := by
  unfold waitEnd at h
  dsimp only at h
  split at h
  · cases h; simp [waitReturn]
  · split at h
    · cases h; simp [waitReturn]
    · split at h
      · cases h; simp [waitReturn, KevThr.clearPdata]
      · obtain ⟨kev, -, rfl⟩ := Option.map_eq_some_iff.1 h
        simp [waitReturn, KevThr.clearPdata]

/-- So does a switch to the thread, unless its context is freed. -/
theorem pollerResume_ticks (h : s.pollerResume D t = some s') (hl : (s'.thr t).live) :
    (s'.thr t).expireTicks = (s.thr t).expireTicks ∧ (s.thr t).live := by
  unfold pollerResume at h
  dsimp only at h
  split at h
  · cases hw : (s.thr t).wait with
    | none =>
      rw [hw] at h
      cases h
      simp only [KevSt.setThr, Function.update_self] at hl ⊢
      exact ⟨trivial, hl⟩
    | some w =>
      rw [hw] at h
      obtain ⟨x, r, hs', hlx, -⟩ := waitEnd_spec h
      have hx : (s'.thr t).live = x.live := by rw [hs']; simp [waitReturn]
      refine ⟨(waitEnd_ticks h).trans (by simp [KevSt.setThr]), ?_⟩
      rw [hx, hlx] at hl
      simpa [KevSt.setThr] using hl
  · cases h
    simp [freed] at hl

theorem setResume_tracks (h : Tracks (s.thr u) (g u)) :
    Tracks ((s.setResume t).thr u) (Function.update g t false u) := by
  unfold setResume
  by_cases hu : u = t
  · subst hu
    rw [Function.update_self]
    split
    · exact .queued fun _ => by simp
    · intro hl
      exact absurd hl ‹_›
  · rw [Function.update_of_ne hu]
    split
    · rwa [setThr_ne hu]
    · exact h

/-- An entry touches the deadline of its own thread only, in `set_resume_fast`. -/
theorem deliver_tracks {i : Nat} {kev : Kevent} {rc : Int} (h : Tracks (s.thr u) (g u))
    (hs : s.deliver D i kev rc = some s') : Tracks (s'.thr u)
      ((if (s.thr kev.udata).state = .otherPoller then
        Function.update g kev.udata false else g) u) := by
  by_cases hu : u = kev.udata
  · subst hu
    unfold deliver at hs
    dsimp only at hs
    split at hs
    · rename_i hst
      obtain ⟨bit, -, hs⟩ := Option.bind_eq_some_iff.1 hs
      rw [if_pos hst, Function.update_self]
      unfold setResumeFast at hs
      split at hs
      · split at hs
        · cases hs
        · cases hs
          rename_i hl _
          unfold setResume
          rw [if_pos hl]
          exact .queued fun _ => by simp
      · cases hs
        exact fun hl => absurd hl ‹_›
    · rename_i hst
      rw [if_neg hst]
      split at hs
      · intro hl'
        obtain ⟨ht, hl⟩ := pollerResume_ticks hs hl'
        rw [ht]
        simp only [setThr_self] at hl ⊢
        exact h hl
      · cases hs
        intro hl
        simp only [setThr_self] at hl
        contradiction
  · have hg : (if (s.thr kev.udata).state = .otherPoller then
        Function.update g kev.udata false else g) u = g u := by
      split
      · exact Function.update_of_ne hu _ _
      · rfl
    rw [hg]
    rcases deliver_cases hs with ⟨x, rfl, -⟩ | ⟨-, -, hran⟩
    · rwa [setThr_ne hu]
    · rwa [hran.frame u hu, setThr_ne hu]

theorem takenOut_step (h : ∀ u, Tracks (s.thr u) (g u)) (hs : kevStep D s e = some s') (u : Ptr) :
    Tracks (s'.thr u) (takenOut s e s' g u) := by
  cases e with
  | spawn t =>
    simp only [kevStep] at hs
    split at hs
    · cases hs
    · cases hs
      dsimp only [takenOut]
      by_cases hu : u = t
      · subst hu
        rw [Function.update_self]
        exact .queued fun _ => by simp
      · rw [Function.update_of_ne hu, setThr_ne hu]
        exact h u
  | resume t =>
    simp only [kevStep] at hs
    split at hs
    · dsimp only [takenOut]
      unfold siftResume at hs
      by_cases hu : u = t
      · subst hu
        rw [Function.update_self]
        refine .cleared fun hl => ?_
        rw [(pollerResume_ticks hs hl).1, setThr_self]
      · rw [Function.update_of_ne hu, (pollerResume_ran hs).frame u hu, setThr_ne hu]
        exact h u
    · cases hs
  | wait w =>
    obtain ⟨t, ht, rfl⟩ := Option.map_eq_some_iff.1 hs
    simp only [waitBegin]
    by_cases hu : u = t
    · subst hu
      simp only [setThr_self, (addEvents_spec w.pairs s u).1]
      exact h u
    · rw [show ({ (KevSt.setThr _ t _ : KevSt) with me := none } : KevSt).thr u = _ from setThr_ne hu,
        (addEvents_spec w.pairs s t).1]
      exact h u
  | block st d =>
    obtain ⟨t, ht, hs⟩ := Option.bind_eq_some_iff.1 hs
    split at hs
    · cases hs
      cases d with
      | none =>
        by_cases hu : u = t
        · subst hu
          simp only [takenOut, setThr_self]
          exact h u
        · simpa [takenOut, KevSt.setThr, hu] using h u
      | some d =>
        simp only [takenOut, ht, Option.elim]
        by_cases hu : u = t
        · subst hu
          intro _
          simp only [setThr_self, Function.update_self, decide_eq_true_eq]
          exact Nat.lt_one_iff
        · rw [Function.update_of_ne hu]
          simpa [KevSt.setThr, hu] using h u
    · cases hs
  | exit =>
    obtain ⟨t, ht, rfl⟩ := Option.map_eq_some_iff.1 hs
    by_cases hu : u = t
    · subst hu
      intro hl
      simp [freed, KevSt.setThr] at hl
    · simpa [takenOut, freed, KevSt.setThr, hu] using h u
  | wake t =>
    obtain ⟨-, rfl⟩ := wake_cases hs
    exact setResume_tracks (h u)
  | interrupt t =>
    obtain ⟨-, rfl⟩ := interrupt_cases hs
    dsimp only [takenOut]
    unfold setInterrupt
    by_cases hu : u = t
    · subst hu
      rw [Function.update_self]
      split
      · exact .queued fun _ => by simp
      · exact fun hl => absurd hl ‹_›
    · rw [Function.update_of_ne hu]
      split
      · rw [setThr_ne hu, (clearEvent_spec s t).1]
        exact h u
      · exact h u
  | setRc t v =>
    simp only [kevStep] at hs
    split at hs
    · cases hs
      by_cases hu : u = t
      · subst hu
        simp only [takenOut, setThr_self]
        exact h u
      · simpa [takenOut, setThr_ne hu] using h u
    · cases hs
  | close fd => cases hs; exact h u
  | kevent refused fired =>
    rw [(kevent_cases hs).2.1]
    exact h u
  | keventError n refused =>
    rw [(keventError_cases hs).2.1]
    exact h u
  | entry =>
    obtain ⟨-, i, kev, rest, s1, hb, hthr, -, -, hd⟩ := entry_cases hs
    dsimp only [takenOut]
    rw [hb, ← hthr]
    exact deliver_tracks (by rw [hthr]; exact h u) hd

end

/-- In every reachable state in which the batch loop calls `set_resume_fast` for a
thread in `mnthr_wait_for_events`: the assertion holds exactly when the sift was
not the last to touch the deadline of the thread. -/
theorem set_resume_fast_asserts_iff (D : KevBuild) (es : List KevEvent)
    (p : KevSt × (Ptr → Bool))
    (h : exec (recorded (kevStep D) takenOut) (.init, fun _ => false) es = some p) (t : Ptr)
    (hc : CallsFast p.1 t) :
    SLEEP_RESUME_NOW ≤ (p.1.thr t).expireTicks ↔ p.2 t = false := by
  have hT : ∀ u, Tracks (p.1.thr u) (p.2 u) := by
    refine exec_inv (I := fun p : KevSt × (Ptr → Bool) => ∀ u, Tracks (p.1.thr u) (p.2 u))
      (C := fun _ _ => True) (fun q e q' hI _ hs u => ?_) (fun u hl => by cases hl)
      (along_of_forall fun _ _ => trivial) h
    obtain ⟨hs, hg⟩ := recorded_step hs
    rw [hg]
    exact takenOut_step hI hs u
  rw [← Nat.not_lt, hT t hc.live, Bool.not_eq_true]

instance (s : KevSt) (t : Ptr) : Decidable (CallsFast s t) :=
  decidable_of_iff ((s.me = none ∧ ∃ x ∈ s.batch.head?, x.2.udata = t) ∧
    (s.thr t).state = .otherPoller ∧ (s.thr t).live)
    ⟨fun h => ⟨h.1, h.2.1, h.2.2⟩, fun h => ⟨h.entry, h.state, h.live⟩⟩

/-- Thread 1 waits for both directions of descriptor 5 when it is started, and
one is reported: the assertion fails. -/
theorem set_resume_fast_aborts : ∃ p, exec (recorded (kevStep .sample) takenOut)
      (.init, fun _ => false) (eventsRun [EVFILT_READ]).dropLast = some p ∧
    CallsFast p.1 1 ∧ ¬ SLEEP_RESUME_NOW ≤ (p.1.thr 1).expireTicks ∧
    exec (kevStep .sample) .init (eventsRun [EVFILT_READ]) = none := by
  obtain ⟨p, hp⟩ := Option.isSome_iff_exists.1
    (show (exec (recorded (kevStep .sample) takenOut) (.init, fun _ => false)
      (eventsRun [EVFILT_READ]).dropLast).isSome by decide)
  have hc : CallsFast p.1 1 := of_decide_eq_true
    (fact_of_map hp (f := fun p => decide (CallsFast p.1 1)) (by decide))
  have ht : (p.1.thr 1).expireTicks = SLEEP_UNDEFINED :=
    fact_of_map hp (f := fun p => (p.1.thr 1).expireTicks) (by decide)
  refine ⟨p, hp, hc, by rw [ht]; decide, ?_⟩
  exact Option.isNone_iff_eq_none.1 (by decide)

/-- Without assertions: both directions are reported at once, and the second entry
resumes the thread out of the sleep queue. When it waits again, the assertion
would hold. -/
def directWait : List KevEvent :=
  eventsRun [EVFILT_READ, EVFILT_WRITE] ++
    [.entry, .wait ⟨.waitForEvents, 5⟩, .kevent [] [(⟨5, EVFILT_READ⟩, 1, ⟨0, 10⟩)]]

theorem set_resume_fast_asserts_direct : ∃ p, exec (recorded (kevStep .release) takenOut)
      (.init, fun _ => false) directWait = some p ∧ CallsFast p.1 1 ∧
    SLEEP_RESUME_NOW ≤ (p.1.thr 1).expireTicks := by
  obtain ⟨p, hp⟩ := Option.isSome_iff_exists.1
    (show (exec (recorded (kevStep .release) takenOut) (.init, fun _ => false)
      directWait).isSome by decide)
  have hc : CallsFast p.1 1 := of_decide_eq_true
    (fact_of_map hp (f := fun p => decide (CallsFast p.1 1)) (by decide))
  exact ⟨p, hp, hc, (set_resume_fast_asserts_iff .release directWait p hp 1 hc).2
    (fact_of_map hp (f := fun p => p.2 1) (by decide))⟩

end Mnthr

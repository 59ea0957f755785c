import Mnthr.L2Sched.Kevent

/-!
# What a step of the kevent backend does

`kevStep_queue`: the change list, the count, the registrations and the batch
after a step, as a function of the state before it. `thr_step`: a step leaves
the wait of a thread alone, begins it, or lets it return; it returns to the
sift, or to an entry that carries the thread. `KevInv` says in which states a
thread may wait.
-/
namespace Mnthr
open Kqueue KevSt

/-! ## The queue -/

/-- The change list with `event_count`, the registrations and the entries to
come. -/
structure KevQueue where
  kevents0 : List KevChange
  eventCount : Int
  kq : List (KevPair × Ptr)
  batch : List (Nat × Kevent)

namespace KevQueue

def adds (q : KevQueue) (t : Ptr) (ps : List KevPair) : KevQueue :=
  { q with kevents0 := q.kevents0 ++ ps.map (⟨·, true, t⟩), eventCount := q.eventCount + ps.length }

def discards (q : KevQueue) (t : Ptr) (ps : List KevPair) : KevQueue :=
  { q with
    kevents0 := q.kevents0 ++ ps.map (⟨·, false, t⟩), eventCount := q.eventCount - ps.length }

end KevQueue

/-- The pairs that `poller_clear_event` discards. -/
def KevThr.clears (x : KevThr) : List KevPair :=
  if x.ident = -1 then []
  else match x.state with
    | .read | .write => [⟨x.ident, x.filter⟩]
    | .otherPoller => [⟨x.ident, EVFILT_READ⟩, ⟨x.ident, EVFILT_WRITE⟩]
    | _ => []

namespace KevSt

def queue (s : KevSt) : KevQueue := ⟨s.kevents0, s.eventCount, s.kq, s.batch⟩

/-- The queue after a step. -/
def queueAfter (s : KevSt) : KevEvent → KevQueue
  | .wait w => s.me.elim s.queue fun t => s.queue.adds t w.pairs
  | .interrupt t => if (s.thr t).live then s.queue.discards t (s.thr t).clears else s.queue
  | .close fd => { s.queue with kq := s.kq.filter fun x => decide (x.1.ident ≠ fd) }
  | .kevent refused fired =>
    { s.queue with
      kevents0 := [], kq := (applyChanges s.kevents0 refused s.kq).1,
      batch := (s.results refused fired).zipIdx.map Prod.swap }
  | .keventError n refused =>
    { s.queue with kevents0 := [], kq := (applyChanges (s.kevents0.take n) refused s.kq).1 }
  | .entry =>
    match s.batch with
    | [] => s.queue
    | (_, kev) :: rest =>
      { if kev.error then s.queue else s.queue.discards kev.udata [kev.pair] with batch := rest }
  | _ => s.queue

end KevSt

section
variable {D : KevBuild} {s s' : KevSt} {e : KevEvent} {t u : Ptr} {w : KevWait} {x : KevThr}

@[simp] theorem setThr_queue : (s.setThr t x).queue = s.queue := rfl
@[simp] theorem setThr_me : (s.setThr t x).me = s.me := rfl
@[simp] theorem setThr_self : (s.setThr t x).thr t = x := by simp [KevSt.setThr]
theorem setThr_ne (h : u ≠ t) : (s.setThr t x).thr u = s.thr u := by simp [KevSt.setThr, h]

@[simp] theorem discardEvent_thr (p : KevPair) : (s.discardEvent p t).thr = s.thr := rfl
@[simp] theorem discardEvent_me (p : KevPair) : (s.discardEvent p t).me = s.me := rfl
@[simp] theorem discardEvent_queue (p : KevPair) :
    (s.discardEvent p t).queue = s.queue.discards t [p] := by
  simp [discardEvent, newEvent, KevSt.queue, KevQueue.discards]

theorem pairs_nodup (w : KevWait) : w.pairs.Nodup := by
  obtain ⟨fn, fd⟩ := w
  cases fn <;> simp [KevWait.pairs, KevFn.filters, EVFILT_READ, EVFILT_WRITE]

theorem clearEvent_spec (s : KevSt) (t : Ptr) :
    (s.clearEvent t).thr = s.thr ∧ (s.clearEvent t).me = s.me ∧
      (s.clearEvent t).queue = s.queue.discards t (s.thr t).clears := by
  have none : s.queue = s.queue.discards t [] := by simp [KevQueue.discards]
  unfold clearEvent KevThr.clears
  dsimp only
  split
  · exact ⟨rfl, rfl, none⟩
  · cases (s.thr t).state with
    | read | write => exact ⟨rfl, rfl, discardEvent_queue _⟩
    | otherPoller =>
      refine ⟨rfl, rfl, ?_⟩
      simp only [discardEvent_queue, KevQueue.discards, List.map_cons, List.map_nil,
        List.append_assoc, List.length_cons, List.length_nil, KevQueue.mk.injEq, and_true]
      exact ⟨rfl, by push_cast; omega⟩
    | _ => exact ⟨rfl, rfl, none⟩

theorem addEvents_spec (ps : List KevPair) (s : KevSt) (t : Ptr) :
    (ps.foldl (fun s p => s.addEvent p t) s).thr = s.thr ∧
      (ps.foldl (fun s p => s.addEvent p t) s).queue = s.queue.adds t ps := by
  induction ps generalizing s with
  | nil => simp [KevQueue.adds]
  | cons p ps ih =>
    obtain ⟨h1, h2⟩ := ih (s.addEvent p t)
    refine ⟨h1, ?_⟩
    rw [List.foldl_cons, h2]
    simp [addEvent, newEvent, KevSt.queue, KevQueue.adds]
    omega

/-! ## Switching to a thread -/

/-- What the wait `w` of `t` returns to it, in state `x`. -/
structure Reply (t : Ptr) (w : KevWait) (x : KevThr) (r : KevRet) : Prop where
  thr : r.thr = t
  wait : r.wait = w
  rc : r.ok → x.rc = 0
  events : r.ok → w.fn = .waitForEvents → r.events = some x.filter

theorem waitEnd_spec (h : s.waitEnd D t w = some s') : ∃ x r, s' = s.waitReturn t x r ∧
    x.live = (s.thr t).live ∧ x.state = (s.thr t).state ∧ x.queued = (s.thr t).queued ∧
    Reply t w (s.thr t) r := by
  unfold waitEnd at h
  dsimp only at h
  split at h
  · cases h
    exact ⟨_, _, rfl, rfl, rfl, rfl, rfl, rfl, by simp, by simp⟩
  · rename_i hrc
    have hrc : (s.thr t).rc = 0 := not_not.1 hrc
    split at h
    · cases h
      exact ⟨_, _, rfl, rfl, rfl, rfl, rfl, rfl, by simp, by simp⟩
    · split at h
      · cases h
        exact ⟨_, _, rfl, rfl, rfl, rfl, rfl, rfl, fun _ => hrc, fun _ _ => rfl⟩
      · rename_i hfn
        obtain ⟨kev, -, rfl⟩ := Option.map_eq_some_iff.1 h
        exact ⟨_, _, rfl, rfl, rfl, rfl, rfl, rfl, fun _ => hrc, fun _ h => absurd h hfn⟩

/-- `t` was switched to: it runs, and its wait has returned, or it was not
resumable, and its context went to the free list. -/
structure Ran (s : KevSt) (t : Ptr) (s' : KevSt) : Prop where
  queue : s'.queue = s.queue
  frame : ∀ u, u ≠ t → s'.thr u = s.thr u
  wait : (s'.thr t).wait = none
  runs : (s.thr t).state.resumable →
    s'.me = some t ∧ (s'.thr t).state = .resumed ∧ (s'.thr t).live = (s.thr t).live ∧
      (s'.thr t).queued = (s.thr t).queued ∧
      ∀ w, (s.thr t).wait = some w → ∃ r, s'.ret = some r ∧ Reply t w (s.thr t) r
  frees : (s.thr t).state.resumable = false → s'.me = s.me ∧ (s'.thr t).state = .dormant

theorem pollerResume_ran (h : s.pollerResume D t = some s') : Ran s t s' := by
  unfold pollerResume at h
  dsimp only at h
  split at h
  · rename_i hres
    cases hw : (s.thr t).wait with
    | none =>
      rw [hw] at h
      cases h
      refine ⟨rfl, fun u hu => setThr_ne hu, by simp [KevSt.setThr],
        fun _ => ⟨rfl, by simp [KevSt.setThr], by simp [KevSt.setThr], by simp [KevSt.setThr],
          fun w hw' => ?_⟩, fun hn => by rw [hn] at hres; cases hres⟩
      rw [hw] at hw'
      cases hw'
    | some w =>
      rw [hw] at h
      obtain ⟨x, r, rfl, hl, hst, hqd, hr⟩ := waitEnd_spec h
      simp only [setThr_self] at hl hst hqd hr
      refine ⟨rfl, fun u hu => (setThr_ne hu).trans (setThr_ne hu), by simp [waitReturn],
        fun _ => ⟨rfl, by simp [waitReturn, hst], by simp [waitReturn, hl],
          by simp [waitReturn, hqd], fun w' hw' => ?_⟩,
        fun hn => by rw [hn] at hres; cases hres⟩
      cases hw.symm.trans hw'
      exact ⟨r, rfl, hr.thr, hr.wait, hr.rc, hr.events⟩
  · rename_i hres
    cases h
    refine ⟨rfl, fun u hu => setThr_ne hu, by simp [freed], fun h => absurd h hres,
      fun _ => ⟨rfl, by simp [freed]⟩⟩

/-- The entry of `kev`, up to the thread: it is set for resume, it is switched
to, or there is none. -/
theorem deliver_cases {i : Nat} {kev : Kevent} {rc : Int} (h : s.deliver D i kev rc = some s') :
    (∃ x, s' = s.setThr kev.udata x ∧ x.live = (s.thr kev.udata).live ∧
      x.wait = (s.thr kev.udata).wait ∧ x.rc = (s.thr kev.udata).rc ∧
      (((s.thr kev.udata).live = false ∧ x.state = (s.thr kev.udata).state) ∨
        ((s.thr kev.udata).live ∧ (s.thr kev.udata).state = .otherPoller ∧
          x.state = .setResume ∧ x.queued))) ∨
    ((s.thr kev.udata).state ≠ .otherPoller ∧ (s.thr kev.udata).live ∧
      Ran (s.setThr kev.udata { s.thr kev.udata with idx := some i, rc := rc }) kev.udata s') := by
  unfold deliver at h
  dsimp only at h
  split at h
  · rename_i hop
    obtain ⟨bit, -, h⟩ := Option.bind_eq_some_iff.1 h
    unfold setResumeFast at h
    rw [setThr_self] at h
    split at h
    · split at h
      · cases h
      · cases h
        rename_i hl _
        unfold setResume
        rw [setThr_self, if_pos hl]
        refine .inl ⟨{ s.thr kev.udata with
          idx := none, filter := (s.thr kev.udata).filter ||| bit, state := .setResume,
          expireTicks := SLEEP_RESUME_NOW, queued := true }, ?_, rfl, rfl, rfl,
          .inr ⟨hl, hop, rfl, rfl⟩⟩
        simp [KevSt.setThr]
    · cases h
      rename_i hl
      exact .inl ⟨_, rfl, rfl, rfl, rfl, .inl ⟨by simpa using hl, rfl⟩⟩
  · split at h
    · rename_i hst hl
      exact .inr ⟨hst, hl, pollerResume_ran h⟩
    · cases h
      rename_i hl
      exact .inl ⟨_, rfl, rfl, rfl, rfl, .inl ⟨by simpa using hl, rfl⟩⟩

theorem setResume_queue : (s.setResume t).queue = s.queue := by
  unfold setResume
  split <;> rfl

theorem deliver_queue {i : Nat} {kev : Kevent} {rc : Int} (h : s.deliver D i kev rc = some s') :
    s'.queue = s.queue := by
  rcases deliver_cases h with ⟨x, rfl, -⟩ | ⟨-, -, hran⟩
  · rfl
  · exact hran.queue

/-! ## One step -/

/-- The batch loop takes an entry, and deletes its registration unless it
carries an error; the rest is about its thread. -/
theorem entry_cases (hs : kevStep D s .entry = some s') : s.me = none ∧
    ∃ (i : Nat) (kev : Kevent) (rest : List (Nat × Kevent)) (s1 : KevSt),
      s.batch = (i, kev) :: rest ∧ s1.thr = s.thr ∧ s1.me = s.me ∧ s1.queue = s.queueAfter .entry ∧
      s1.deliver D i kev (if kev.error then D.CO_RC_POLLER else 0) = some s' := by
  simp only [kevStep] at hs
  split at hs
  swap
  · cases hs
  rename_i hme
  unfold entry at hs
  split at hs
  · cases hs
  rename_i i kev rest hb
  dsimp only at hs
  split at hs
  · cases hs
  refine ⟨hme, i, kev, rest, ?_⟩
  unfold queueAfter
  rw [hb]
  dsimp only
  split at hs
  · rename_i he
    exact ⟨{ s with batch := rest }, rfl, rfl, rfl, by rw [if_pos he]; rfl, by rwa [if_pos he]⟩
  · rename_i he
    exact ⟨{ s with batch := rest }.discardEvent kev.pair kev.udata, rfl, rfl, rfl,
      by rw [discardEvent_queue, if_neg he]; rfl, by rwa [if_neg he]⟩

/-- The batch loop has an entry to look at. -/
theorem entry_batch (hs : kevStep D s .entry = some s') :
    ∃ i kev rest, s.batch = (i, kev) :: rest := by
  obtain ⟨-, i, kev, rest, -, hb, -⟩ := entry_cases hs
  exact ⟨i, kev, rest, hb⟩

theorem wake_cases (hs : kevStep D s (.wake t) = some s') :
    s.me ≠ some t ∧ s' = s.setResume t := by
  simp only [kevStep] at hs
  split at hs <;> cases hs
  exact ⟨‹_›, rfl⟩

theorem interrupt_cases (hs : kevStep D s (.interrupt t) = some s') :
    s.me ≠ some t ∧ s' = s.setInterrupt D t := by
  simp only [kevStep] at hs
  split at hs <;> cases hs
  exact ⟨‹_›, rfl⟩

/-- `kevent` changes the queue only, and is called between two batches. -/
theorem kevent_cases {refused : List Bool} {fired : List (KevPair × Ptr × KevData)}
    (hs : kevStep D s (.kevent refused fired) = some s') : s.atTop ∧ s'.thr = s.thr ∧
      s'.me = s.me ∧ s'.queue = s.queueAfter (.kevent refused fired) := by
  simp only [kevStep, KevSt.kevent] at hs
  split at hs
  · split at hs <;> cases hs
    exact ⟨‹_›, rfl, rfl, rfl⟩
  · cases hs

theorem keventError_cases {n : Nat} {refused : List Bool}
    (hs : kevStep D s (.keventError n refused) = some s') : s.atTop ∧ s'.thr = s.thr ∧
      s'.me = s.me ∧ s'.queue = s.queueAfter (.keventError n refused) := by
  simp only [kevStep, KevSt.keventError] at hs
  split at hs
  · split at hs <;> cases hs
    exact ⟨‹_›, rfl, rfl, rfl⟩
  · cases hs

theorem kevStep_queue (hs : kevStep D s e = some s') : s'.queue = s.queueAfter e := by
  cases e with
  | spawn t =>
    simp only [kevStep] at hs
    split at hs <;> cases hs
    rfl
  | resume t =>
    simp only [kevStep] at hs
    split at hs
    · exact (pollerResume_ran hs).queue
    · cases hs
  | wait w =>
    obtain ⟨t, ht, rfl⟩ := Option.map_eq_some_iff.1 hs
    simp only [queueAfter, ht, Option.elim]
    exact (addEvents_spec w.pairs s t).2
  | block st deadline =>
    obtain ⟨t, -, h⟩ := Option.bind_eq_some_iff.1 hs
    split at h <;> cases h
    rfl
  | exit =>
    obtain ⟨t, -, rfl⟩ := Option.map_eq_some_iff.1 hs
    rfl
  | wake t =>
    obtain ⟨-, rfl⟩ := wake_cases hs
    exact setResume_queue
  | interrupt t =>
    obtain ⟨-, rfl⟩ := interrupt_cases hs
    unfold setInterrupt queueAfter
    dsimp only
    split
    · exact (clearEvent_spec s t).2.2
    · rfl
  | setRc t v =>
    simp only [kevStep] at hs
    split at hs <;> cases hs
    rfl
  | close fd => cases hs; rfl
  | kevent refused fired => exact (kevent_cases hs).2.2.2
  | keventError n refused => exact (keventError_cases hs).2.2.2
  | entry =>
    obtain ⟨-, i, kev, rest, s1, -, -, -, hq, hd⟩ := entry_cases hs
    exact (deliver_queue hd).trans hq

/-- Only threads that run, or may be resumed, have a function; a thread waits
in the state that its wait function set, until it is set for resume. -/
structure KevInv (s : KevSt) : Prop where
  live : ∀ u, (s.thr u).state ≠ .dormant → (s.thr u).live
  running : ∀ u, s.me = some u → (s.thr u).state = .resumed
  waiting : ∀ u w, (s.thr u).wait = some w → (s.thr u).state = w.fn.state ∨
    (s.thr u).state = .setResume ∨ (s.thr u).state = .setInterrupt

theorem kev_init : KevInv .init where
  live _ h := absurd rfl h
  running _ h := by cases h
  waiting _ _ h := by cases h

theorem KevInv.resumable (hI : KevInv s) (hw : (s.thr u).wait = some w) :
    (s.thr u).state.resumable := by
  rcases hI.waiting u w hw with h | h | h <;> rw [h]
  · cases w.fn <;> rfl
  · rfl
  · rfl

theorem KevInv.not_me (hI : KevInv s) (hw : (s.thr u).wait = some w) : s.me ≠ some u := by
  intro hme
  have hres := hI.resumable hw
  rw [hI.running u hme] at hres
  cases hres

theorem KevInv.isLive (hI : KevInv s) (hw : (s.thr u).wait = some w) : (s.thr u).live :=
  hI.live u (resumable_ne (hI.resumable hw)).1

theorem KevInv.congr (hI : KevInv s) (ht : s'.thr = s.thr) (hm : s'.me = s.me) : KevInv s' := by
  obtain ⟨h1, h2, h3⟩ := hI
  rw [← ht] at h1 h2 h3
  rw [← hm] at h2
  exact ⟨h1, h2, h3⟩

/-- One thread changes, and the thread that runs may stop. -/
theorem KevInv.set (hI : KevInv s) (ht : ∀ u, u ≠ t → s'.thr u = s.thr u)
    (hm : ∀ u, s'.me = some u → s.me = some u)
    (hl : (s'.thr t).state ≠ .dormant → (s'.thr t).live)
    (hr : s'.me = some t → (s'.thr t).state = .resumed)
    (hw : ∀ w, (s'.thr t).wait = some w → (s'.thr t).state = w.fn.state ∨
      (s'.thr t).state = .setResume ∨ (s'.thr t).state = .setInterrupt) : KevInv s' := by
  refine ⟨fun u => ?_, fun u => ?_, fun u => ?_⟩ <;> by_cases hu : u = t
  · subst hu; exact hl
  · rw [ht u hu]; exact hI.live u
  · subst hu; exact hr
  · rw [ht u hu]; exact fun h => hI.running u (hm u h)
  · subst hu; exact hw
  · rw [ht u hu]; exact hI.waiting u

theorem KevInv.ran (hI : KevInv s) (hme : s.me = none) (h : Ran s t s') : KevInv s' := by
  by_cases hres : (s.thr t).state.resumable
  · obtain ⟨hm, hst, hl, -⟩ := h.runs hres
    refine ⟨fun u => ?_, fun u hu => ?_, fun u w => ?_⟩
    · by_cases hu : u = t
      · subst hu
        rw [hl]
        exact fun _ => hI.live u (resumable_ne hres).1
      · rw [h.frame u hu]
        exact hI.live u
    · obtain rfl : t = u := Option.some.inj (hm.symm.trans hu)
      exact hst
    · by_cases hu : u = t
      · subst hu
        rw [h.wait]
        exact fun hw => by cases hw
      · rw [h.frame u hu]
        exact hI.waiting u w
  · obtain ⟨hm, hst⟩ := h.frees (by simpa using hres)
    refine hI.set h.frame (fun u hu => ?_) (fun hd => absurd hst hd) (fun hu => ?_) fun w hw => ?_
    · rwa [hm] at hu
    · rw [hm, hme] at hu
      cases hu
    · rw [h.wait] at hw
      cases hw

/-! ## The wait of a thread -/

/-- The wait goes on: at most the thread is set for resume or interrupted, and
a failure it is to return stays one. Directions are noted in a thread that is
set for resume. -/
structure Kept (x x' : KevThr) : Prop where
  wait : x'.wait = x.wait
  state : x.wait ≠ none →
    x'.state = x.state ∨ x'.state = .setResume ∨ x'.state = .setInterrupt
  rc : x.wait ≠ none → x.rc ≠ 0 → x'.rc ≠ 0
  queued : x.wait ≠ none → x.queued → x'.queued
  filter : x.wait ≠ none → x'.filter = x.filter ∨ x'.queued

theorem Kept.refl (x : KevThr) : Kept x x :=
  ⟨rfl, fun _ => .inl rfl, fun _ h => h, fun _ h => h, fun _ => .inl rfl⟩

/-- A thread that does not wait. -/
theorem Kept.idle {x x' : KevThr} (hw : x.wait = none) (hw' : x'.wait = none) : Kept x x' :=
  ⟨hw'.trans hw.symm, fun h => absurd hw h, fun h => absurd hw h, fun h => absurd hw h,
    fun h => absurd hw h⟩

theorem Kept.others (ht : ∀ u, u ≠ t → s'.thr u = s.thr u) (h : Kept (s.thr t) (s'.thr t))
    (u : Ptr) : Kept (s.thr u) (s'.thr u) := by
  by_cases hu : u = t
  · exact hu ▸ h
  · rw [ht u hu]
    exact .refl _

/-- The event switches to `u`, which finds `rc` in `co.rc`. -/
def Switches (D : KevBuild) (s : KevSt) (u : Ptr) (rc : Int) : KevEvent → Prop
  | .resume t => t = u ∧ s.batch = [] ∧ rc = (s.thr u).rc
  | .entry => ∃ i kev rest, s.batch = (i, kev) :: rest ∧ kev.udata = u ∧
      (s.thr u).state ≠ .otherPoller ∧ (s.thr u).live ∧
      rc = if kev.error then D.CO_RC_POLLER else 0
  | _ => False

/-- What a step does to the wait of `u`. -/
inductive ThrStep (D : KevBuild) (s : KevSt) (e : KevEvent) (s' : KevSt) (u : Ptr) : Prop where
  | kept (h : Kept (s.thr u) (s'.thr u))
  | began (w : KevWait) (he : e = .wait w) (hme : s.me = some u)
      (hw : (s'.thr u).wait = some w)
  | returned (rc : Int) (he : Switches D s u rc e) (hw : (s'.thr u).wait = none)
      (hret : ∀ w, (s.thr u).wait = some w →
        ∃ r, s'.ret = some r ∧ Reply u w { s.thr u with rc := rc } r ∧
          (e = .entry → (s'.thr u).queued = (s.thr u).queued))

/-- Only the thread that is switched to returns. -/
theorem Ran.thrStep (hI : KevInv s) (h : Ran s t s') {s0 : KevSt} {rc : Int}
    (h0 : ∀ u, u ≠ t → s.thr u = s0.thr u) (hw : (s.thr t).wait = (s0.thr t).wait)
    (hf : (s.thr t).filter = (s0.thr t).filter) (he : Switches D s0 t rc e)
    (hrc : (s.thr t).rc = rc) (hqd : e = .entry → (s.thr t).queued = (s0.thr t).queued)
    (u : Ptr) : ThrStep D s0 e s' u := by
  by_cases hu : u = t
  · subst hu
    refine .returned rc he h.wait fun w hw0 => ?_
    rw [← hw] at hw0
    obtain ⟨-, -, -, hq, hret⟩ := h.runs (hI.resumable hw0)
    obtain ⟨r, hr, hrep⟩ := hret w hw0
    refine ⟨r, hr, ⟨hrep.thr, hrep.wait, fun hok => ?_, fun hok hfn => ?_⟩, fun he => ?_⟩
    · exact hrc.symm.trans (hrep.rc hok)
    · rw [hrep.events hok hfn, hf]
    · rw [hq, hqd he]
  · refine .kept ?_
    rw [h.frame u hu, h0 u hu]
    exact .refl _

theorem setResume_keeps (hI : KevInv s) (hme : s.me ≠ some t) :
    KevInv (s.setResume t) ∧ ∀ u, Kept (s.thr u) ((s.setResume t).thr u) := by
  unfold setResume
  split
  · rename_i hl
    constructor
    · exact hI.set (t := t) (fun u hu => setThr_ne hu) (fun _ h => h) (by simp [hl])
        (fun h => absurd h hme) (by simp)
    · exact Kept.others (t := t) (fun u hu => setThr_ne hu)
        ⟨by simp, by simp, by simp, by simp, by simp⟩
  · exact ⟨hI, fun u => .refl _⟩

theorem setInterrupt_spec (h : (s.thr t).live) :
    (s.setInterrupt D t).me = s.me ∧
      (∀ u, u ≠ t → (s.setInterrupt D t).thr u = s.thr u) ∧
      (s.setInterrupt D t).thr t = { s.thr t with
        rc := D.CO_RC_USER_INTERRUPTED, state := .setInterrupt,
        expireTicks := SLEEP_RESUME_NOW, queued := true } := by
  obtain ⟨h1, h2, -⟩ := clearEvent_spec s t
  unfold setInterrupt
  rw [if_pos h]
  refine ⟨h2, fun u hu => ?_, ?_⟩
  · exact (setThr_ne hu).trans (by rw [h1])
  · simp [h1]

theorem setInterrupt_keeps (hI : KevInv s) (hme : s.me ≠ some t) :
    KevInv (s.setInterrupt D t) ∧ ∀ u, Kept (s.thr u) ((s.setInterrupt D t).thr u) := by
  by_cases hl : (s.thr t).live
  · obtain ⟨hm, hne, ht⟩ := setInterrupt_spec (D := D) hl
    constructor
    · refine hI.set hne (fun u hu => by rwa [hm] at hu) (by simp [ht, hl]) (fun hu => ?_)
        (by simp [ht])
      rw [hm] at hu
      exact absurd hu hme
    · refine Kept.others hne ⟨by simp [ht], by simp [ht], fun _ _ => ?_, by simp [ht],
        by simp [ht]⟩
      rw [ht]
      exact D.ne_zero _ _
  · have : s.setInterrupt D t = s := by unfold setInterrupt; rw [if_neg hl]
    rw [this]
    exact ⟨hI, fun u => .refl _⟩

/-- The batch loop at an entry of `kev`; `s` is the state without the entry,
with the deletion it asks for. -/
theorem deliver_step {s0 : KevSt} {i : Nat} {kev : Kevent} {rc : Int} (hI : KevInv s)
    (hme : s.me = none) (ht : s.thr = s0.thr)
    (he : (s0.thr kev.udata).state ≠ .otherPoller → (s0.thr kev.udata).live →
      Switches D s0 kev.udata rc e)
    (h : s.deliver D i kev rc = some s') : KevInv s' ∧ ∀ u, ThrStep D s0 e s' u := by
  rcases deliver_cases h with ⟨x, rfl, hl, hw, hrc, hst⟩ | ⟨hst, hl, hran⟩
  · constructor
    · refine hI.set (t := kev.udata) (fun u hu => setThr_ne hu) (fun _ h => h) ?_ ?_ ?_
      · rw [setThr_self, hl]
        rcases hst with ⟨-, h⟩ | ⟨h, -⟩
        · rw [h]
          exact hI.live _
        · exact fun _ => h
      · intro hm
        rw [setThr_me, hme] at hm
        cases hm
      · intro w hw'
        rw [setThr_self] at hw' ⊢
        rcases hst with ⟨-, h⟩ | ⟨-, -, h, -⟩
        · rw [h]
          exact hI.waiting _ w (hw.symm.trans hw')
        · exact .inr (.inl h)
    · intro u
      refine .kept ?_
      rw [← ht]
      refine Kept.others (t := kev.udata) (fun u hu => setThr_ne hu) ?_ u
      rw [setThr_self]
      rcases hst with ⟨hd, -⟩ | ⟨-, -, h, hqd⟩
      · -- a thread that waits is not dead
        refine .idle (Option.eq_none_iff_forall_ne_some.2 fun w hw' => ?_)
          (Option.eq_none_iff_forall_ne_some.2 fun w hw' => ?_)
        · rw [hI.isLive hw'] at hd
          cases hd
        · rw [hw] at hw'
          rw [hI.isLive hw'] at hd
          cases hd
      · exact ⟨hw, fun _ => .inr (.inl h), fun _ h0 => by rwa [hrc], fun _ _ => hqd,
          fun _ => .inr hqd⟩
  · have hI' : KevInv (s.setThr kev.udata { s.thr kev.udata with idx := some i, rc := rc }) := by
      refine hI.set (t := kev.udata) (fun u hu => setThr_ne hu) (fun _ h => h) ?_ ?_ ?_
      · rw [setThr_self]
        exact fun _ => hl
      · intro hm
        rw [setThr_me, hme] at hm
        cases hm
      · intro w hw
        rw [setThr_self] at hw ⊢
        exact hI.waiting _ w hw
    refine ⟨hI'.ran hme hran, fun u => ?_⟩
    rw [ht] at hst hl
    refine hran.thrStep hI' (fun u hu => ?_) ?_ ?_ (he hst hl) ?_ (fun _ => ?_) u
    · rw [setThr_ne hu, ht]
    · rw [setThr_self, ht]
    · rw [setThr_self, ht]
    · rw [setThr_self]
    · rw [setThr_self, ht]

theorem waitBegin_step (hI : KevInv s) (ht : s.me = some t) :
    KevInv (s.waitBegin t w) ∧ ∀ u, ThrStep D s (.wait w) (s.waitBegin t w) u := by
  have hne : ∀ u, u ≠ t → (s.waitBegin t w).thr u = s.thr u := fun u hu =>
    (setThr_ne hu).trans (congrFun (addEvents_spec w.pairs s t).1 u)
  have hx : (s.waitBegin t w).thr t = { s.thr t with
      ident := w.fd, filter := w.fn.pdataFilter, state := w.fn.state, wait := some w } := by
    unfold waitBegin
    simp [(addEvents_spec w.pairs s t).1]
  constructor
  · refine hI.set hne (fun u hu => by cases hu) ?_ (fun hu => by cases hu) ?_
    · rw [hx]
      exact fun _ => hI.live t (by rw [hI.running t ht]; exact fun h => by cases h)
    · rw [hx]
      intro w' hw'
      cases hw'
      exact .inl rfl
  · intro u
    by_cases hu : u = t
    · subst hu
      exact .began w rfl ht (by rw [hx])
    · refine .kept ?_
      rw [hne u hu]
      exact .refl _

/-- The thread that runs stops, for something else than a descriptor. -/
theorem stop_keeps (hI : KevInv s) (hw : (s.thr t).wait = none) (hx : x.wait = none)
    (hl : x.state ≠ .dormant → x.live) : KevInv { s.setThr t x with me := none } ∧
      ∀ u, Kept (s.thr u) (({ s.setThr t x with me := none } : KevSt).thr u) := by
  have ht : ({ s.setThr t x with me := none } : KevSt).thr t = x := setThr_self
  constructor
  · refine hI.set (t := t) (fun u hu => setThr_ne hu) (fun _ h => by cases h) ?_
      (fun h => by cases h) fun w hw' => ?_
    · rwa [ht]
    · rw [ht, hx] at hw'
      cases hw'
  · exact Kept.others (fun u hu => setThr_ne hu) (.idle hw (by rw [ht, hx]))

theorem kev_step (hI : KevInv s) (hs : kevStep D s e = some s') :
    KevInv s' ∧ ∀ u, ThrStep D s e s' u := by
  have hmeWait : ∀ t, s.me = some t → (s.thr t).wait = none := fun t ht =>
    Option.eq_none_iff_forall_ne_some.2 fun w hw => hI.not_me hw ht
  cases e with
  | spawn t =>
    simp only [kevStep] at hs
    split at hs <;> cases hs
    rename_i hl
    have hw : (s.thr t).wait = none := Option.eq_none_iff_forall_ne_some.2 fun w hw =>
      hl (hI.isLive hw)
    constructor
    · refine hI.set (t := t) (fun u hu => setThr_ne hu) (fun _ h => h) (by simp) (fun hm => ?_)
        (fun w hw' => ?_)
      · exact absurd (hI.live t (by rw [hI.running t hm]; exact fun h => by cases h)) hl
      · rw [setThr_self] at hw'
        cases hw'
    · exact fun u => .kept (Kept.others (t := t) (fun u hu => setThr_ne hu)
        (.idle hw (by rw [setThr_self]; rfl)) u)
  | resume t =>
    simp only [kevStep] at hs
    split at hs
    swap
    · cases hs
    rename_i hat
    unfold siftResume at hs
    have hran := pollerResume_ran hs
    have hI' : KevInv (s.setThr t
        { s.thr t with expireTicks := SLEEP_UNDEFINED, queued := false }) := by
      refine hI.set (t := t) (fun u hu => setThr_ne hu) (fun _ h => h) ?_ ?_ ?_ <;>
        rw [setThr_self]
      · exact hI.live t
      · exact hI.running t
      · exact hI.waiting t
    refine ⟨hI'.ran hat.1.1 hran, hran.thrStep hI' (fun u hu => setThr_ne hu) ?_ ?_
      ⟨rfl, hat.1.2, rfl⟩ ?_ fun h => by cases h⟩ <;> rw [setThr_self]
  | wait w =>
    obtain ⟨t, ht, rfl⟩ := Option.map_eq_some_iff.1 hs
    exact waitBegin_step hI ht
  | block st deadline =>
    obtain ⟨t, ht, h⟩ := Option.bind_eq_some_iff.1 hs
    split at h
    swap
    · cases h
    cases h
    have hl := hI.live t (by rw [hI.running t ht]; exact fun h => by cases h)
    refine (stop_keeps hI (hmeWait t ht) ?_ ?_).imp_right fun h u => .kept (h u)
    · cases deadline <;> exact hmeWait t ht
    · cases deadline <;> exact fun _ => hl
  | exit =>
    obtain ⟨t, ht, rfl⟩ := Option.map_eq_some_iff.1 hs
    exact (stop_keeps hI (hmeWait t ht) rfl fun h => absurd rfl h).imp_right
      fun h u => .kept (h u)
  | wake t =>
    obtain ⟨hme, rfl⟩ := wake_cases hs
    exact ⟨(setResume_keeps hI hme).1, fun u => .kept ((setResume_keeps hI hme).2 u)⟩
  | interrupt t =>
    obtain ⟨hme, rfl⟩ := interrupt_cases hs
    exact ⟨(setInterrupt_keeps hI hme).1, fun u => .kept ((setInterrupt_keeps hI hme).2 u)⟩
  | setRc t v =>
    simp only [kevStep] at hs
    split at hs <;> cases hs
    rename_i hv
    constructor
    · refine hI.set (t := t) (fun u hu => setThr_ne hu) (fun _ h => h) ?_ ?_ ?_ <;>
        rw [setThr_self]
      · exact hI.live t
      · exact hI.running t
      · exact hI.waiting t
    · refine fun u => .kept (Kept.others (t := t) (fun u hu => setThr_ne hu) ?_ u)
      rw [setThr_self]
      refine ⟨rfl, fun _ => .inl rfl, fun hw _ => ?_, fun _ h => h, fun _ => .inl rfl⟩
      obtain ⟨w, hw⟩ := Option.ne_none_iff_exists'.1 hw
      rcases hv with h | h | h
      · exact absurd h (hI.not_me hw)
      · rw [h]
        exact D.ne_zero _ _
      · rcases hI.waiting t w hw with h' | h' | h' <;> rw [h] at h'
        · cases hfn : w.fn <;> rw [hfn] at h' <;> cases h'
        · cases h'
        · cases h'
  | close fd =>
    cases hs
    exact ⟨hI.congr rfl rfl, fun u => .kept (.refl _)⟩
  | kevent refused fired =>
    obtain ⟨-, hthr, hm, -⟩ := kevent_cases hs
    exact ⟨hI.congr hthr hm, fun u => .kept (by rw [hthr]; exact .refl _)⟩
  | keventError n refused =>
    obtain ⟨-, hthr, hm, -⟩ := keventError_cases hs
    exact ⟨hI.congr hthr hm, fun u => .kept (by rw [hthr]; exact .refl _)⟩
  | entry =>
    obtain ⟨hme, i, kev, rest, s1, hb, hthr, hm, -, hd⟩ := entry_cases hs
    exact deliver_step (hI.congr hthr hm) (hm.trans hme) hthr
      (fun h1 h2 => ⟨i, kev, rest, hb, rfl, h1, h2, rfl⟩) hd

end

end Mnthr

import Mnthr.L5Runs.EvPoller
import Mnthr.L5Runs.KevRegs

/-!
# `mnthr_wait_for_events` in the two backends

The wait is for two directions at once, and the caller wants to know which of
them fired. The kevent backend has two registrations for it and defers the
resume at the first entry: one direction leaves the other's registration
behind, and the second entry of a batch finds the state changed and resumes the
thread at once, without its direction and with the thread still in the sleep
queue. The libev backend has one watcher, and reads the directions off the mask
it was started with. `wait_for_events_exact`: the first is never exact, the
second when both directions have fired.
-/
namespace Mnthr
open Kqueue KevSt

/-- What `*events` is when it says exactly which directions fired. -/
def eventBits (read write : Bool) : BitVec 32 :=
  (if read then MNTHR_WAIT_EVENT_READ else 0) ||| (if write then MNTHR_WAIT_EVENT_WRITE else 0)

/-! ## libev -/

/-- mirrors src/ev_poller.c:772-777: what is stored in `*events`. -/
def EvItem.eventsStored (x : EvItem) (events : BitVec 32) : BitVec 32 :=
  let r := if x.events &&& EV_READ ≠ 0 then events ||| MNTHR_WAIT_EVENT_READ else events
  if x.events &&& EV_WRITE ≠ 0 then r ||| MNTHR_WAIT_EVENT_WRITE else r

/-- In a run: the watcher of a `mnthr_wait_for_events` of `t` fires, and the call
succeeds. -/
structure EvSuccess (D : Diag) (H : UInt64 → Int → UInt64) (t : Ptr) (F : Frame)
    (s s1 s2 : EvSt) : Prop where
  run : ∃ es, exec (evStep D H) .init es = some s
  waits : s.frame t = some F
  fn : F.fn = .waitForEvents
  fires : evStep D H s (.event F.ev) = some s1
  resumes : ∃ n, evStep D H s1 (.resume t n) = some s2
  ok : s2.ret = some (t, 0)

/-- The call has told exactly which directions fired, and its watcher is
stopped. -/
structure EvExact (t : Ptr) (F : Frame) (s1 s2 : EvSt) (events : BitVec 32) (read write : Bool) :
    Prop where
  events : (s1.item F.ev).eventsStored events = eventBits read write
  once : s2.frame t = none
  clean : (s2.item F.ev).active = false

theorem or_eq_right_iff {n : Nat} (a m : BitVec n) : a ||| m = m ↔ a &&& ~~~m = 0 := by
  constructor
  · intro h
    ext i hi
    have hi' := congrArg (fun v : BitVec n => v.getLsbD i) h
    simp only [BitVec.getLsbD_or] at hi'
    simp only [BitVec.getElem_and, BitVec.getElem_not]
    rw [← BitVec.getLsbD_eq_getElem, ← BitVec.getLsbD_eq_getElem]
    cases ha : a.getLsbD i <;> simp_all
  · intro h
    ext i hi
    have hi' := congrArg (fun v : BitVec n => v.getLsbD i) h
    simp only [BitVec.getLsbD_and, BitVec.getLsbD_not, hi, decide_true, Bool.true_and] at hi'
    simp only [BitVec.getElem_or]
    rw [← BitVec.getLsbD_eq_getElem, ← BitVec.getLsbD_eq_getElem]
    cases ha : a.getLsbD i <;> simp_all

theorem stored_iff (events : BitVec 32) (read write : Bool) :
    events ||| MNTHR_WAIT_EVENT_READ ||| MNTHR_WAIT_EVENT_WRITE = eventBits read write ↔
      read ∧ write ∧ events &&& ~~~(MNTHR_WAIT_EVENT_READ ||| MNTHR_WAIT_EVENT_WRITE) = 0 := by
  rw [← or_eq_right_iff, BitVec.or_assoc]
  have bit : ∀ i, events ||| (MNTHR_WAIT_EVENT_READ ||| MNTHR_WAIT_EVENT_WRITE) =
      eventBits read write → (MNTHR_WAIT_EVENT_READ ||| MNTHR_WAIT_EVENT_WRITE).getLsbD i →
      (eventBits read write).getLsbD i := by
    intro i h hi
    rw [← h, BitVec.getLsbD_or, hi, Bool.or_true]
  constructor
  · intro h
    have h0 := bit 0 h rfl
    have h1 := bit 1 h rfl
    have hr : read = true := by
      revert h0
      cases read <;> cases write <;> decide
    have hw : write = true := by
      revert h1
      cases read <;> cases write <;> decide
    subst hr hw
    exact ⟨rfl, rfl, h⟩
  · intro h
    obtain ⟨rfl, rfl, h⟩ := h
    exact h

/-- The result comes from the mask of the watcher, which is the same whatever
fired. -/
theorem ev_exact {D : Diag} {H : UInt64 → Int → UInt64} {t : Ptr} {F : Frame} {s s1 s2 : EvSt}
    (h : EvSuccess D H t F s s1 s2) (events : BitVec 32) (read write : Bool) :
    EvExact t F s1 s2 events read write ↔
      read ∧ write ∧ events &&& ~~~(MNTHR_WAIT_EVENT_READ ||| MNTHR_WAIT_EVENT_WRITE) = 0 := by
  obtain ⟨es, hr⟩ := h.run
  have hI := ev_inv hr
  have hI1 := ev_step hI h.fires
  have hd := hI.owner t F h.waits
  -- the callback stops the watcher, and the wait is still there to return
  have hs1 : s1.frame t = some F ∧ (s1.item F.ev).active = false := by
    have hs1 := h.fires
    simp only [evStep] at hs1
    split at hs1
    · rename_i hact
      rw [(ioCb_eq hI hact.1 hact.2 hd).2] at hs1
      cases hs1
      refine ⟨h.waits, ?_⟩
      simp [EvSt.ioStop, EvSt.setItem]
    · cases hs1
  have hs2 : s2.frame t = none ∧ (s2.item F.ev).active = false := by
    obtain ⟨n, hn⟩ := h.resumes
    obtain ⟨G, hG, hn⟩ := Option.bind_eq_some_iff.1 hn
    cases hs1.1.symm.trans hG
    rw [waitEnd_eq hI1 hG] at hn
    cases hn
    refine ⟨by simp [EvSt.setFrame], ?_⟩
    exact (setItem_keeps (s := s1) (a := F.ev) EvItem.active
      (x := { s1.item F.ev with data := none }) rfl F.ev).trans hs1.2
  have hmask : (s1.item F.ev).eventsStored events =
      events ||| MNTHR_WAIT_EVENT_READ ||| MNTHR_WAIT_EVENT_WRITE := by
    have hev := (hI1.key t F hs1.1).2
    rw [h.fn] at hev
    unfold EvItem.eventsStored
    rw [hev]
    rfl
  constructor
  · intro hx
    exact (stored_iff events read write).1 (hmask ▸ hx.events)
  · intro hx
    exact ⟨hmask.trans ((stored_iff events read write).2 hx), hs2.1, hs2.2⟩

/-! ## kevent -/

instance (s : KevSt) (u : Ptr) (p : KevPair) : Decidable (s.WaitsOn u p) :=
  decidable_of_iff (∃ w ∈ (s.thr u).wait, p ∈ w.pairs) Iff.rfl

/-- For each thread, the directions that fired for the wait it is in, or was in
last. -/
def readyFor (s : KevSt) (e : KevEvent) (_ : KevSt) (g : Ptr → List (BitVec 32)) :
    Ptr → List (BitVec 32) :=
  match e with
  | .wait _ => s.me.elim g fun t => Function.update g t []
  | .entry =>
    match s.batch with
    | [] => g
    | (_, kev) :: _ =>
      if kev.error = false ∧ s.WaitsOn kev.udata kev.pair then
        Function.update g kev.udata (g kev.udata ++ [kev.pair.filter])
      else g
  | _ => g

/-- Nobody else touches the registrations that a thread waits on, and none of
them is refused. -/
def LeavesAlone (s : KevSt) (e : KevEvent) : Prop :=
  Protects s.WaitsOn s e ∧
    match e with
    | .kevent refused _ => ∀ x ∈ s.regAfter, s.WaitsOn x.2 x.1 →
        x ∈ (applyChanges s.kevents0 refused s.kq).1
    | _ => True

instance (s : KevSt) (e : KevEvent) : Decidable (LeavesAlone s e) := by
  refine e.casesOn ?_ ?_ ?_ ?_ ?_ ?_ ?_ ?_ ?_ ?_ ?_ ?_ <;> intros <;> unfold LeavesAlone <;>
    infer_instance

/-- In such a run: a `mnthr_wait_for_events` of `t` for which some directions
fired succeeds. -/
structure KevSuccess (D : KevBuild) (t : Ptr) (w : KevWait) (r : KevRet)
    (p p' : KevSt × (Ptr → List (BitVec 32))) : Prop where
  run : ∃ es, exec (recorded (kevStep D) readyFor) (.init, fun _ => []) es = some p ∧
    Along (kevStep D) LeavesAlone .init es
  step : ∃ e, recorded (kevStep D) readyFor p e = some p'
  fn : w.fn = .waitForEvents
  waits : (p.1.thr t).wait = some w
  returns : (p'.1.thr t).wait = none
  ret : p'.1.ret = some r
  ok : r.ok = true
  fired : p'.2 t ≠ []

/-- The call has told exactly the directions `ds`, and left neither a registration
nor its thread in the sleep queue. -/
structure KevExact (s' : KevSt) (t : Ptr) (w : KevWait) (r : KevRet) (ds : List (BitVec 32)) :
    Prop where
  events : r.events =
    some (eventBits (decide (EVFILT_READ ∈ ds)) (decide (EVFILT_WRITE ∈ ds)))
  once : (s'.thr t).queued = false
  clean : ∀ p ∈ w.pairs, (p, t) ∉ s'.regAfter

/-- A thread in `mnthr_wait_for_events`: before the first entry both registrations
are there; after it the thread is in the sleep queue, and one is left. -/
structure EventsInv (p : KevSt × (Ptr → List (BitVec 32))) : Prop extends KevInv p.1 where
  blocked : ∀ t w, (p.1.thr t).wait = some w → w.fn = .waitForEvents →
    (p.1.thr t).state = .otherPoller → p.2 t = [] ∧ ∀ q ∈ w.pairs, (q, t) ∈ p.1.regAfter
  left : ∀ t w, (p.1.thr t).wait = some w → w.fn = .waitForEvents → p.2 t ≠ [] →
    (p.1.thr t).queued ∧ ∃ q ∈ w.pairs, (q, t) ∈ p.1.regAfter
  noted : ∀ t w, (p.1.thr t).wait = some w → w.fn = .waitForEvents →
    (p.1.thr t).filter = 0 ∨ (p.1.thr t).queued

section
variable {D : KevBuild} {s s' : KevSt} {p p' : KevSt × (Ptr → List (BitVec 32))} {e : KevEvent}
  {t : Ptr} {w : KevWait} {q : KevPair} {g : Ptr → List (BitVec 32)}

/-- A registration that is waited for goes by an interrupt of its thread, or by
its entry. -/
theorem waited_stays (hc : LeavesAlone s e) (hW : s.WaitsOn t q) (h : (q, t) ∈ s.regAfter)
    (hs : kevStep D s e = some s') : (q, t) ∈ s'.regAfter ∨
      (e = .interrupt t ∧ (s.thr t).live ∧ q ∈ (s.thr t).clears) ∨
      (e = .entry ∧ ∃ x ∈ s.batch.head?, x.2.reg = (q, t)) := by
  rcases registration_stays hc.1 hW h hs with h' | h'
  · exact .inl h'
  · cases h' with
    | @refused refused fired x hx he hr =>
      left
      rw [regAfter_queue, kevStep_queue hs]
      exact hc.2 (q, t) h hW
    | interrupted hl hp => exact .inr (.inl ⟨rfl, hl, hp⟩)
    | @delivered i kev rest hb hr he => exact .inr (.inr ⟨rfl, (i, kev), by rw [hb]; rfl, hr⟩)

theorem readyFor_entry {i : Nat} {kev : Kevent} {rest : List (Nat × Kevent)}
    (hb : s.batch = (i, kev) :: rest) : readyFor s .entry s' g =
      if kev.error = false ∧ s.WaitsOn kev.udata kev.pair then
        Function.update g kev.udata (g kev.udata ++ [kev.pair.filter])
      else g := by
  unfold readyFor
  rw [hb]

/-- Only the entries of a thread add to what fired for it. -/
theorem readyFor_other (hme : s.me ≠ some t) (h : ∀ x ∈ s.batch.head?, e = .entry → x.2.udata ≠ t) :
    readyFor s e s' g t = g t := by
  cases e with
  | wait w =>
    unfold readyFor
    cases hm : s.me with
    | none => rfl
    | some u =>
      have hne : t ≠ u := fun h => hme (h ▸ hm)
      exact Function.update_of_ne hne _ _
  | entry =>
    unfold readyFor
    cases hb : s.batch with
    | nil => rfl
    | cons x rest =>
      obtain ⟨i, kev⟩ := x
      have hne : t ≠ kev.udata := fun hu => h (i, kev) (by rw [hb]; rfl) rfl hu.symm
      dsimp only
      split
      · exact Function.update_of_ne hne _ _
      · rfl
  | _ => rfl

/-- The pairs of `mnthr_wait_for_events` are one for each direction. -/
theorem events_pairs (hfn : w.fn = .waitForEvents) :
    w.pairs = [⟨w.fd, EVFILT_READ⟩, ⟨w.fd, EVFILT_WRITE⟩] := by
  unfold KevWait.pairs
  rw [hfn]
  rfl

theorem events_other (hfn : w.fn = .waitForEvents) (hq : q ∈ w.pairs) :
    ∃ q' ∈ w.pairs, q' ≠ q := by
  rw [events_pairs hfn] at hq ⊢
  rcases List.mem_cons.1 hq with rfl | hq
  · exact ⟨⟨w.fd, EVFILT_WRITE⟩, .tail _ (.head _), by simp [EVFILT_READ, EVFILT_WRITE]⟩
  · rw [List.mem_singleton.1 hq]
    exact ⟨⟨w.fd, EVFILT_READ⟩, .head _, by simp [EVFILT_READ, EVFILT_WRITE]⟩

/-- A step that leaves the wait of `t` alone, other than an entry that carries
it. -/
theorem EventsInv.kept (hI : EventsInv p) (hc : LeavesAlone p.1 e)
    (hs : recorded (kevStep D) readyFor p e = some p') (hk : Kept (p.1.thr t) (p'.1.thr t))
    (hx : ∀ x ∈ p.1.batch.head?, e = .entry → x.2.udata ≠ t) (hw : (p'.1.thr t).wait = some w)
    (hfn : w.fn = .waitForEvents) :
    ((p'.1.thr t).state = .otherPoller → p'.2 t = [] ∧ ∀ q ∈ w.pairs, (q, t) ∈ p'.1.regAfter) ∧
      (p'.2 t ≠ [] → (p'.1.thr t).queued ∧ ∃ q ∈ w.pairs, (q, t) ∈ p'.1.regAfter) ∧
      ((p'.1.thr t).filter = 0 ∨ (p'.1.thr t).queued) := by
  obtain ⟨hs, hg⟩ := recorded_step hs
  have hw0 : (p.1.thr t).wait = some w := hk.wait.symm.trans hw
  have hne : (p.1.thr t).wait ≠ none := by rw [hw0]; exact Option.some_ne_none w
  have hg' : p'.2 t = p.2 t := by
    rw [hg]
    exact readyFor_other (hI.toKevInv.not_me hw0) hx
  -- what is registered stays, unless the thread is interrupted
  have stays : ∀ q ∈ w.pairs, (q, t) ∈ p.1.regAfter → (q, t) ∈ p'.1.regAfter ∨
      (e = .interrupt t ∧ (p.1.thr t).live ∧ q ∈ (p.1.thr t).clears) := by
    intro q hq hin
    rcases waited_stays hc ⟨w, hw0, hq⟩ hin hs with h | h | ⟨he, x, hxm, hxr⟩
    · exact .inl h
    · exact .inr h
    · exact absurd (congrArg Prod.snd hxr) (hx x hxm he)
  refine ⟨fun hst => ?_, fun hne' => ?_, ?_⟩
  · have hst0 : (p.1.thr t).state = .otherPoller := by
      rcases hk.state hne with h | h | h
      · rw [← h, hst]
      · rw [h] at hst
        cases hst
      · rw [h] at hst
        cases hst
    obtain ⟨h1, h2⟩ := hI.blocked t w hw0 hfn hst0
    refine ⟨hg'.trans h1, fun q hq => ?_⟩
    rcases stays q hq (h2 q hq) with h | ⟨rfl, hl, -⟩
    · exact h
    · rw [(interrupt_cases hs).2, (setInterrupt_spec hl).2.2] at hst
      cases hst
  · rw [hg'] at hne'
    obtain ⟨hqd, q, hq, hin⟩ := hI.left t w hw0 hfn hne'
    refine ⟨hk.queued hne hqd, q, hq, ?_⟩
    rcases stays q hq hin with h | ⟨-, -, hcl⟩
    · exact h
    · -- an interrupt of a thread that is set for resume discards nothing
      unfold KevThr.clears at hcl
      split at hcl
      · cases hcl
      · rcases hI.waiting t w hw0 with h | h | h
        · rw [hfn] at h
          exact absurd (hI.blocked t w hw0 hfn h).1 hne'
        · rw [h] at hcl
          cases hcl
        · rw [h] at hcl
          cases hcl
  · rcases hk.filter hne with h | h
    · rw [h]
      exact (hI.noted t w hw0 hfn).imp_right (hk.queued hne)
    · exact .inr h

/-- An entry that carries `t` and leaves it waiting. -/
theorem EventsInv.deferred (hI : EventsInv p) (hc : LeavesAlone p.1 .entry) {i : Nat}
    {kev : Kevent} {rest : List (Nat × Kevent)} (hb : p.1.batch = (i, kev) :: rest)
    (ht : kev.udata = t) (hs : recorded (kevStep D) readyFor p .entry = some p')
    (hk : Kept (p.1.thr t) (p'.1.thr t)) (hw : (p'.1.thr t).wait = some w)
    (hfn : w.fn = .waitForEvents) :
    (p'.1.thr t).state ≠ .otherPoller ∧ (p'.1.thr t).queued ∧
      (p'.2 t ≠ [] → ∃ q ∈ w.pairs, (q, t) ∈ p'.1.regAfter) := by
  obtain ⟨hs, hg⟩ := recorded_step hs
  subst ht
  have hw0 : (p.1.thr kev.udata).wait = some w := hk.wait.symm.trans hw
  obtain ⟨hop, hst, hqd⟩ := entry_defers hI.toKevInv hb hs hw
  obtain ⟨hg0, hreg⟩ := hI.blocked _ w hw0 hfn hop
  refine ⟨by rw [hst]; decide, hqd, fun hne => ?_⟩
  have hq : kev.pair ∈ w.pairs := by
    rw [hg, readyFor_entry hb] at hne
    split at hne
    · rename_i h
      obtain ⟨w', hw', hp⟩ := h.2
      cases hw0.symm.trans hw'
      exact hp
    · exact absurd hg0 hne
  obtain ⟨q, hq', hqne⟩ := events_other hfn hq
  refine ⟨q, hq', ?_⟩
  rcases waited_stays hc ⟨w, hw0, hq'⟩ (hreg q hq') hs with h | ⟨he, -⟩ | ⟨-, x, hx, hxr⟩
  · exact h
  · cases he
  · rw [hb] at hx
    cases hx
    exact absurd (congrArg Prod.fst hxr).symm hqne

theorem events_step (hI : EventsInv p) (hc : LeavesAlone p.1 e)
    (hs : recorded (kevStep D) readyFor p e = some p') : EventsInv p' := by
  obtain ⟨hs0, hg⟩ := recorded_step hs
  obtain ⟨hI', hthr⟩ := kev_step hI.toKevInv hs0
  have all : ∀ t w, (p'.1.thr t).wait = some w → w.fn = .waitForEvents →
      ((p'.1.thr t).state = .otherPoller →
        p'.2 t = [] ∧ ∀ q ∈ w.pairs, (q, t) ∈ p'.1.regAfter) ∧
      (p'.2 t ≠ [] → (p'.1.thr t).queued ∧ ∃ q ∈ w.pairs, (q, t) ∈ p'.1.regAfter) ∧
      ((p'.1.thr t).filter = 0 ∨ (p'.1.thr t).queued) := by
    intro t w hw hfn
    cases hthr t with
    | kept hk =>
      by_cases hx : ∀ x ∈ p.1.batch.head?, e = .entry → x.2.udata ≠ t
      · exact hI.kept hc hs hk hx hw hfn
      · simp only [not_forall, not_not] at hx
        obtain ⟨x, hxm, rfl, hxt⟩ := hx
        obtain ⟨i, kev⟩ := x
        obtain ⟨rest, hb⟩ : ∃ rest, p.1.batch = (i, kev) :: rest := List.head?_eq_some_iff.1 hxm
        obtain ⟨h1, h2, h3⟩ := hI.deferred hc hb hxt hs hk hw hfn
        exact ⟨fun h => absurd h h1, fun h => ⟨h2, h3 h⟩, .inr h2⟩
    | began w' he hme hw' =>
      cases hw.symm.trans hw'
      subst he
      have hg' : p'.2 t = [] := by
        rw [hg]
        simp [readyFor, hme]
      refine ⟨fun _ => ⟨hg', fun q hq => ?_⟩, fun h => absurd hg' h, .inl ?_⟩
      · rw [regAfter_queue, kevStep_queue hs0]
        simp only [queueAfter, hme, Option.elim, KevQueue.adds]
        rw [show p.1.queue.kevents0 = p.1.kevents0 from rfl, show p.1.queue.kq = p.1.kq from rfl,
          settle_append]
        exact mem_adds.2 (.inl ⟨hq, rfl⟩)
      · obtain ⟨u, hu, hs1⟩ := Option.map_eq_some_iff.1 hs0
        cases hme.symm.trans hu
        rw [← hs1]
        unfold waitBegin
        simp [hfn, KevFn.pdataFilter]
    | returned rc he hw' hret => cases hw.symm.trans hw'
  exact ⟨hI', fun t w hw hfn => (all t w hw hfn).1, fun t w hw hfn => (all t w hw hfn).2.1,
    fun t w hw hfn => (all t w hw hfn).2.2⟩

theorem events_inv {es : List KevEvent}
    (hr : exec (recorded (kevStep D) readyFor) (.init, fun _ => []) es = some p)
    (hc : Along (kevStep D) LeavesAlone .init es) : EventsInv p := by
  refine exec_inv (I := EventsInv) (C := fun p e => LeavesAlone p.1 e)
    (fun _ _ _ hI hc hs => events_step hI hc hs) ?_ (along_recorded.1 hc) hr
  refine ⟨kev_init, ?_, ?_, ?_⟩ <;> exact fun _ _ h => by cases h

theorem eventBits_ne_zero {f : BitVec 32} (hf : f = EVFILT_READ ∨ f = EVFILT_WRITE) :
    eventBits (decide (EVFILT_READ ∈ [f])) (decide (EVFILT_WRITE ∈ [f])) ≠ 0 := by
  rcases hf with rfl | rfl <;> decide

/-- Resumed by the sift, the thread leaves a registration behind; resumed by an
entry, it is resumed again, or has not got the direction of that entry. -/
theorem kevent_inexact {r : KevRet} (h : KevSuccess D t w r p p') :
    ¬ KevExact p'.1 t w r (p'.2 t) := by
  intro hx
  obtain ⟨es, hr, hc⟩ := h.run
  obtain ⟨e, hs⟩ := h.step
  have hI := events_inv hr hc
  obtain ⟨hs, hg⟩ := recorded_step hs
  cases (kev_step hI.toKevInv hs).2 t with
  | kept hk =>
    have := h.waits.symm.trans (hk.wait.symm.trans h.returns)
    cases this
  | began w' he hme hw' =>
    have := h.returns.symm.trans hw'
    cases this
  | returned rc he hw' hret =>
    obtain ⟨r', hr', hrep, hqd⟩ := hret w h.waits
    cases h.ret.symm.trans hr'
    cases e with
    | resume u =>
      have hg' : p'.2 t = p.2 t := by rw [hg]; rfl
      have hne := h.fired
      rw [hg'] at hne
      obtain ⟨-, q, hq, hin⟩ := hI.left t w h.waits h.fn hne
      refine hx.clean q hq ?_
      rw [regAfter_queue, kevStep_queue hs]
      exact hin
    | entry =>
      obtain ⟨i, kev, rest, hb, hu, -⟩ := he
      subst hu
      have hq0 : (p.1.thr kev.udata).queued = false := (hqd rfl).symm.trans hx.once
      have hnil : p.2 kev.udata = [] := by
        by_contra hne
        have := (hI.left _ w h.waits h.fn hne).1
        rw [hq0] at this
        cases this
      have hfil : (p.1.thr kev.udata).filter = 0 := by
        rcases hI.noted _ w h.waits h.fn with h | h
        · exact h
        · rw [hq0] at h
          cases h
      have hcount : kev.error = false ∧ p.1.WaitsOn kev.udata kev.pair := by
        by_contra hno
        refine h.fired ?_
        rw [hg, readyFor_entry hb, if_neg hno, hnil]
      have hp : kev.pair ∈ w.pairs := by
        obtain ⟨w', hw', hp⟩ := hcount.2
        cases h.waits.symm.trans hw'
        exact hp
      have hg' : p'.2 kev.udata = [kev.pair.filter] := by
        rw [hg, readyFor_entry hb, if_pos hcount, Function.update_self, hnil, List.nil_append]
      have hev := (hrep.events h.ok h.fn).symm.trans hx.events
      rw [hg', hfil, Option.some.injEq] at hev
      refine eventBits_ne_zero (f := kev.pair.filter) ?_ hev.symm
      rw [events_pairs h.fn] at hp
      rcases List.mem_cons.1 hp with hp | hp
      · exact .inl (by rw [hp])
      · exact .inr (by rw [List.mem_singleton.1 hp])
    | _ => exact he.elim

end

/-- The kevent backend never tells exactly which directions fired; the libev
backend does when both have, and `*events` has no other bit. -/
theorem wait_for_events_exact (D : KevBuild) (H : UInt64 → Int → UInt64) (t : Ptr) :
    (∀ (w : KevWait) (r : KevRet) (p p' : KevSt × (Ptr → List (BitVec 32))),
      KevSuccess D t w r p p' → ¬ KevExact p'.1 t w r (p'.2 t)) ∧
    ∀ (F : Frame) (s s1 s2 : EvSt), EvSuccess D.toDiag H t F s s1 s2 →
      ∀ (events : BitVec 32) (read write : Bool), EvExact t F s1 s2 events read write ↔
        read ∧ write ∧ events &&& ~~~(MNTHR_WAIT_EVENT_READ ||| MNTHR_WAIT_EVENT_WRITE) = 0 :=
  ⟨fun _ _ _ _ h => kevent_inexact h, fun _ _ _ _ h events read write => ev_exact h events read write⟩

/-- A build without assertions. -/
def KevBuild.release : KevBuild := { Diag.sample with asserts := false }

/-- A reader of both directions of descriptor 5, the given ones of which are
ready in one poll, up to the resume. -/
def eventsRun (fired : List (BitVec 32)) : List KevEvent :=
  [.spawn 1, .resume 1, .wait ⟨.waitForEvents, 5⟩,
    .kevent [] (fired.map fun f => (⟨5, f⟩, 1, ⟨0, 10⟩)), .entry]

theorem events_run_success {fired : List (BitVec 32)} {e : KevEvent} {r : KevRet}
    {p' : KevSt × (Ptr → List (BitVec 32))}
    (hp' : exec (recorded (kevStep .release) readyFor) (.init, fun _ => [])
      (eventsRun fired ++ [e]) = some p')
    (hc : checkAlong (kevStep .release) (fun s e => decide (LeavesAlone s e)) .init
      (eventsRun fired))
    (hw : (exec (recorded (kevStep .release) readyFor) (.init, fun _ => []) (eventsRun fired)).map
      (fun p => (p.1.thr 1).wait) = some (some ⟨.waitForEvents, 5⟩))
    (hw' : (p'.1.thr 1).wait = none) (hr : p'.1.ret = some r) (hok : r.ok = true)
    (hf : p'.2 1 ≠ []) : ∃ p, KevSuccess .release 1 ⟨.waitForEvents, 5⟩ r p p' := by
  obtain ⟨p, hp, hrest⟩ := exec_append hp'
  obtain ⟨u, hu, hn⟩ := exec_cons hrest
  cases hn
  exact ⟨p, ⟨⟨_, hp, along_of_decide hc⟩, ⟨e, hu⟩, rfl, fact_of_map hp hw, hw', hr, hok, hf⟩⟩

/-- The libev call of thread 0 for descriptor 5, up to the callback. -/
def evEventsRun : List EvEvent := [.spawn 0, .wait .waitForEvents 0 5]

theorem ev_events_success : ∃ s s1 s2,
    EvSuccess .sample sampleHash 0 ⟨.waitForEvents, 5, 0⟩ s s1 s2 := by
  obtain ⟨s2, hs2⟩ := Option.isSome_iff_exists.1
    (show (exec (evStep .sample sampleHash) .init
      (evEventsRun ++ [.event 0, .resume 0 0])).isSome by decide)
  obtain ⟨s, hs, hrest⟩ := exec_append hs2
  obtain ⟨s1, h1, hrest⟩ := exec_cons hrest
  obtain ⟨u, h2, hn⟩ := exec_cons hrest
  cases hn
  exact ⟨s, s1, s2, ⟨_, hs⟩, fact_of_map hs (f := fun s => s.frame 0) (by decide), rfl, h1,
    ⟨0, h2⟩, fact_of_map hs2 (f := EvSt.ret) (by decide)⟩

/-- One direction is ready: the sift resumes the thread, and the registration of
the other direction is left. -/
theorem wait_for_events_exact_read :
    (∃ p p' r, KevSuccess .release 1 ⟨.waitForEvents, 5⟩ r p p' ∧ p'.2 1 = [EVFILT_READ] ∧
      ¬ KevExact p'.1 1 ⟨.waitForEvents, 5⟩ r (p'.2 1)) ∧
    ∃ s s1 s2, EvSuccess .sample sampleHash 0 ⟨.waitForEvents, 5, 0⟩ s s1 s2 ∧
      EvExact 0 ⟨.waitForEvents, 5, 0⟩ s1 s2 0 true true := by
  constructor
  · obtain ⟨p', hp'⟩ := Option.isSome_iff_exists.1
      (show (exec (recorded (kevStep .release) readyFor) (.init, fun _ => [])
        (eventsRun [EVFILT_READ] ++ [.resume 1])).isSome by decide)
    have hf := fact_of_map hp' (f := fun p => p.2 1) (a := [EVFILT_READ]) (by decide)
    obtain ⟨p, hp⟩ := events_run_success (r := ⟨1, ⟨.waitForEvents, 5⟩, true, 0, some 1⟩) hp'
      (by decide) (by decide) (fact_of_map hp' (f := fun p => (p.1.thr 1).wait) (by decide))
      (fact_of_map hp' (f := fun p => p.1.ret) (by decide)) rfl (by rw [hf]; decide)
    exact ⟨p, p', _, hp, hf, (wait_for_events_exact .release sampleHash 1).1 _ _ _ _ hp⟩
  · obtain ⟨s, s1, s2, h⟩ := ev_events_success
    exact ⟨s, s1, s2, h, ((wait_for_events_exact .sample sampleHash 0).2 _ _ _ _ h 0 true true).2
      ⟨rfl, rfl, by decide⟩⟩

/-- Both directions are ready in one poll: the kevent backend tells one of them,
and leaves the thread in the sleep queue; with assertions its first entry already
fails one. One direction is ready: the libev backend tells both. -/
theorem wait_for_events_inexact :
    (∃ p p' r, KevSuccess .release 1 ⟨.waitForEvents, 5⟩ r p p' ∧
      p'.2 1 = [EVFILT_READ, EVFILT_WRITE] ∧ r.events = some MNTHR_WAIT_EVENT_READ ∧
      (p'.1.thr 1).queued = true ∧ ¬ KevExact p'.1 1 ⟨.waitForEvents, 5⟩ r (p'.2 1)) ∧
    (exec (kevStep .sample) .init (eventsRun [EVFILT_READ, EVFILT_WRITE])).isSome = false ∧
    ∃ s s1 s2, EvSuccess .sample sampleHash 0 ⟨.waitForEvents, 5, 0⟩ s s1 s2 ∧
      ¬ EvExact 0 ⟨.waitForEvents, 5, 0⟩ s1 s2 0 true false := by
  refine ⟨?_, by decide, ?_⟩
  · obtain ⟨p', hp'⟩ := Option.isSome_iff_exists.1
      (show (exec (recorded (kevStep .release) readyFor) (.init, fun _ => [])
        (eventsRun [EVFILT_READ, EVFILT_WRITE] ++ [.entry])).isSome by decide)
    have hf := fact_of_map hp' (f := fun p => p.2 1) (a := [EVFILT_READ, EVFILT_WRITE])
      (by decide)
    have hq := fact_of_map hp' (f := fun p => (p.1.thr 1).queued) (a := true) (by decide)
    obtain ⟨p, hp⟩ := events_run_success (r := ⟨1, ⟨.waitForEvents, 5⟩, true, 0, some 1⟩) hp'
      (by decide) (by decide) (fact_of_map hp' (f := fun p => (p.1.thr 1).wait) (by decide))
      (fact_of_map hp' (f := fun p => p.1.ret) (by decide)) rfl (by rw [hf]; decide)
    refine ⟨p, p', _, hp, hf, rfl, hq, fun hx => ?_⟩
    have := hq.symm.trans hx.once
    cases this
  · obtain ⟨s, s1, s2, h⟩ := ev_events_success
    refine ⟨s, s1, s2, h, fun hx => ?_⟩
    have := ((ev_exact h 0 true false).1 hx).2.1
    cases this

end Mnthr

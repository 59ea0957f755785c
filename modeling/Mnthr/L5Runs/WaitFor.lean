import Mnthr.L4Inv.Target

/-!
# The result of `mnthr_wait_for`

`waitFor_returns`: in every run in which the context of the target is neither
reused nor released before the waiter goes on, the call returns, with the exit
code of the target if it has exited and with `MNTHR_WAIT_TIMEOUT` if not.
-/
namespace Mnthr
open St

section
variable {D : Diag} {s s' : St} {t x : Ptr} {n : Int}

theorem create_alloc (hA : Alloc s) (hm : Micro D (.create x) s s') :
    x ∈ s'.ctxes ∧ (s'.ctx x).f ≠ none := by
  cases hm with
  | createFree hc =>
    exact ⟨hA.free x (.inl (List.mem_of_find?_eq_some hc)), by simp [setCtx]⟩
  | createNew => exact ⟨by simp, by simp [setCtx]⟩

theorem complete_ret {v : Int} {k : Call} (hme : s.me = some t) (hk : s.pc.call = some k) :
    ∃ s', s.complete v = some s' ∧ s'.ret = some ⟨some t, some k, v⟩ := by
  simp [complete, hme, hk]

/-- The target is alive when the waiter goes to sleep. -/
theorem waitFor_alive {v f : Nat} {b : Bool} (hA : Alloc s) (hme : s.me = some t)
    (hpc : s.pc = .user t) (h : s.waitFor v f b = some s') (hu : (s'.ctx t).uc = .waitFor x n) :
    Alive x n s' ∧ t ≠ x := by
  obtain ⟨s1, y, -, hty, hm, -, -, -, -, -, -, hy⟩ := waitFor_cases (D := .sample) hpc hme h
  obtain ⟨hal, hf⟩ := create_alloc hA hm
  cases hy with
  | sleepYield =>
    obtain ⟨rfl, rfl⟩ : y = x ∧ (s1.ctx y).id = n := by
      simpa [parked, asleep, setCtx] using hu
    refine ⟨⟨?_, ?_, ?_, ?_, hal⟩, hty⟩
    all_goals simp [parked, asleep, queueNow, sleepqEnqueue, sleepqRemove, setCtx, hty.symm, hf]

/-- The waiter goes on while the target is alive: it times out. -/
theorem waitFor_timeout (hI : Inv s) (hA : Alloc s) (h : Alive x n s) (htx : t ≠ x)
    (hpc : s.pc = .post t (.waitFor x n)) (b : Bool) : ∃ s', s.step D (.cont b) = some s' ∧
      s'.ret = some ⟨some t, some (.waitFor x n), D.WAIT_TIMEOUT⟩ := by
  have hrun : s.pc.runs = some t := by rw [hpc]; rfl
  have hme := hI.me t hrun
  have hg : ¬ s.gone x n := not_or.2 ⟨not_not.2 h.ident, h.state⟩
  have hr : (s.ctx x).state.resumable := by
    have h3 := h.state
    have h4 : (s.ctx x).state ≠ .resumed := fun hr => by
      have := h.resumed hr
      rw [hrun] at this
      exact htx (Option.some.inj this)
    cases hx : (s.ctx x).state <;> simp_all [CoState.resumable]
  -- the target is interrupted and its code overwritten
  have hint : (s.takenOff (.ctx x) t).setInterrupt D x =
      some ((s.takenOff (.ctx x) t).queueNow x
        { s.ctx x with rc := D.CO_RC_USER_INTERRUPTED, state := .setInterrupt }) := by
    unfold setInterrupt
    rw [if_neg (show ¬ (s.takenOff (.ctx x) t).me = some x from
        fun hm => htx (Option.some.inj (hme.symm.trans hm))),
      if_neg (show ¬ ((s.takenOff (.ctx x) t).ctx x).f = none from h.f)]
    rfl
  simp only [step, hpc, hA.run t hrun, if_true, cont, waitForEnd, h.alloc, not_true_eq_false, hg, hr,
    if_false, removeMe_eq hme, Option.bind_some, hint]
  exact complete_ret hme (show s.pc.call = some (.waitFor x n) by rw [hpc]; rfl)

/-- The waiter goes on after the target has exited. -/
theorem waitFor_exited (hI : Inv s) (hA : Alloc s) (h : Dead x s)
    (hpc : s.pc = .post t (.waitFor x n)) (b : Bool) : ∃ s', s.step D (.cont b) = some s' ∧
      s'.ret = some ⟨some t, some (.waitFor x n), (s.ctx x).rc⟩ := by
  have hrun : s.pc.runs = some t := by rw [hpc]; rfl
  have hg : s.gone x n := .inr h.state
  simp only [step, hpc, hA.run t hrun, if_true, cont, waitForEnd, h.alloc, not_true_eq_false, hg,
    if_false]
  exact complete_ret (hI.me t hrun) (show s.pc.call = some (.waitFor x n) by rw [hpc]; rfl)

end

theorem waitFor_returns {D : Diag} {objs : Objs} {now : Nat} {es₀ es : List Event} {s₀ s₁ s : St}
    {t x : Ptr} {n : Int} {v f : Nat} {b₀ : Bool} (hr : Reaches D objs now es₀ s₀)
    (hpc₀ : s₀.pc = .user t) (hcall : s₀.step D (.block (.waitFor v f) b₀) = some s₁)
    (huc : (s₁.ctx t).uc = .waitFor x n) (hs : exec (St.step D) s₁ es = some s)
    (hc : Along (St.step D) (Spares x) s₁ es) (hpc : s.pc = .post t (.waitFor x n)) (b : Bool) :
    ∃ s', s.step D (.cont b) = some s' ∧
      s'.ret = some ⟨some t, some (.waitFor x n), (exitCode D x s₁ es).getD D.WAIT_TIMEOUT⟩ := by
  have hI₁ := inv_step hr.inv hcall
  have hreach : Reaches D objs now (es₀ ++ .block (.waitFor v f) b₀ :: es) s :=
    exec_trans hr (by rw [exec, hcall, Option.bind_some, hs])
  have hA := hreach.alloc
  have hI := inv_exec hI₁ hs
  obtain ⟨ha, htx⟩ : Alive x n s₁ ∧ t ≠ x := by
    simp only [step, hpc₀] at hcall
    split at hcall
    · simp only [block] at hcall
      split at hcall
      · exact waitFor_alive hr.alloc (hr.inv.me t (by rw [hpc₀]; rfl)) hpc₀ hcall huc
      · cases hcall
    · cases hcall
  rcases alive_exec hI₁ ha hc hs with ⟨h1, h2⟩ | ⟨h1, h2⟩
  · rw [h2]; exact waitFor_timeout hI hA h1 htx hpc b
  · rw [h2]; exact waitFor_exited hI hA h1 hpc b

/-- Thread 0 is about to start a thread and wait for it, thread 1 is there too. -/
def beforeWait : List Event := [.call (.spawn 0), .call (.spawn 0), .tick 10, .sift, .next]

/-- The target exits with 42, then thread 1 exits, then thread 0 goes on. -/
def targetExits : List Event :=
  [.next, .block .yield false, .sift, .next, .call (.setRetval 42), .exit false, .next, .cont false,
    .exit false, .sift, .next]

theorem waitFor_returns_targetExits : ∃ s₁ s s',
    sampleRun (beforeWait ++ [.block (.waitFor 5 0) false]) = some s₁ ∧
    exec (St.step .sample) s₁ targetExits = some s ∧ s.step .sample (.cont false) = some s' ∧
    exitCode .sample 2 s₁ targetExits = some 42 ∧
    s'.ret = some ⟨some 0, some (.waitFor 2 2), 42⟩ := by
  obtain ⟨s₁, h₁⟩ := Option.isSome_iff_exists.1
    (show (sampleRun (beforeWait ++ [.block (.waitFor 5 0) false])).isSome by decide)
  obtain ⟨s₀, h₀, hcall⟩ := exec_append h₁
  obtain ⟨u, hcall, hu⟩ := exec_cons hcall
  cases hu
  obtain ⟨s, hs⟩ := Option.isSome_iff_exists.1
    (sampleRun_fact h₁ (f := fun s => (exec (St.step .sample) s targetExits).isSome) (by decide))
  have hpc := sampleRun_fact h₁ (a := some (.post 0 (.waitFor 2 2)))
    (f := fun s => (exec (St.step .sample) s targetExits).map St.pc) (by decide)
  have hcode := sampleRun_fact h₁ (a := some 42)
    (f := fun s => exitCode .sample 2 s targetExits) (by decide)
  have hc : Along (St.step .sample) (Spares 2) s₁ targetExits :=
    along_of_decide (sampleRun_fact h₁ (a := true) (f := fun s => checkAlong (St.step .sample)
        (fun s e => decide (Spares 2 s e)) s targetExits) (by decide))
  rw [hs] at hpc
  obtain ⟨s', hs', hret⟩ := waitFor_returns (t := 0) h₀ (sampleRun_fact h₀ (f := St.pc) (by decide))
    hcall (sampleRun_fact h₁ (f := fun s => (s.ctx 0).uc) (by decide)) hs hc (Option.some.inj hpc) false
  rw [hcode] at hret
  exact ⟨s₁, s, s', h₁, hs, hs', hcode, hret⟩

/-- As before, but thread 1 starts a thread before it exits. -/
def targetReused : List Event :=
  [.next, .block .yield false, .sift, .next, .call (.setRetval 42), .exit false, .next, .cont false,
    .call (.spawn 0), .exit false, .sift, .next]

theorem waitFor_targetReused : ∃ s₁ s s',
    sampleRun (beforeWait ++ [.block (.waitFor 5 0) false]) = some s₁ ∧
    exec (St.step .sample) s₁ targetReused = some s ∧ s.step .sample (.cont false) = some s' ∧
    exitCode .sample 2 s₁ targetReused = some 42 ∧
    s'.ret = some ⟨some 0, some (.waitFor 2 2), 0⟩ := by
  obtain ⟨s₁, h₁⟩ := Option.isSome_iff_exists.1
    (show (sampleRun (beforeWait ++ [.block (.waitFor 5 0) false])).isSome by decide)
  have hrun := sampleRun_fact h₁ (a := some (some ⟨some 0, some (.waitFor 2 2), 0⟩))
    (f := fun s => ((exec (St.step .sample) s targetReused).bind
      fun u => u.step .sample (.cont false)).map St.ret) (by decide)
  obtain ⟨s', h', hret⟩ := Option.map_eq_some_iff.1 hrun
  obtain ⟨s, hs, hs'⟩ := Option.bind_eq_some_iff.1 h'
  exact ⟨s₁, s, s', h₁, hs, hs', sampleRun_fact h₁ (a := some 42)
    (f := fun s => exitCode .sample 2 s targetReused) (by decide), hret⟩

end Mnthr

import Mnthr.L6Loop.Phases

/-!
# When the main loop blocks, and when it returns

* `loop_blocks_idle`: `mnthr_loop` asks the kernel to wait only when no thread
  can run, and then for the time to the first deadline.
* `loop_returns`: it returns on `mnthr_shutdown`, or with nothing left that
  could run, or with -1; the last also when all threads in the sleep queue are
  2^63 ns or more ahead, as those that called `mnthr_giveup` are.
-/
namespace Mnthr
open St

section
variable {s : St} {c : Ptr}

theorem earliest_none (h : s.earliest = none) : s.sleepq.all = [] := by
  have hnil : s.sleepq.trie.entries = [] := by simpa [St.earliest] using h
  rw [Sleepq.all, hnil]
  rfl

/-- The host under the smallest key is the first to wake up. -/
theorem earliest_le (hS : SleepInv s) (h : s.earliest = some c) : c ∈ s.sleepq.all ∧
    ∀ x ∈ s.sleepq.all, (s.ctx c).expireTicks ≤ (s.ctx x).expireTicks := by
  obtain ⟨e, he, rfl⟩ := Option.map_eq_some_iff.1 h
  obtain ⟨es, hes⟩ := List.head?_eq_some_iff.1 he
  have hmem : e ∈ s.sleepq.trie.entries := by rw [hes]; exact List.mem_cons_self ..
  refine ⟨Sleepq.host_mem_all (List.mem_map.2 ⟨e, hmem, rfl⟩), fun x hx => ?_⟩
  obtain ⟨k, y, hy, hxy⟩ := Sleepq.mem_all.1 hx
  have hsorted := s.sleepq.trie.sorted
  rw [hes] at hsorted hy
  rw [hS.queue.filed k x ⟨y, hes ▸ hy, hxy⟩,
    hS.queue.filed e.1 e.2 ⟨e.2, hmem, List.mem_cons_self ..⟩]
  rcases List.mem_cons.1 hy with rfl | hy
  · exact Nat.le_refl _
  · exact ((List.pairwise_cons.1 hsorted).1 _ hy).le

/-- A timeout other than zero is the time to the first deadline. -/
theorem timeout_cases {t : Timespec} (hS : SleepInv s) (h : s.timeout = some t) :
    ∃ c ∈ s.sleepq.all, (∀ x ∈ s.sleepq.all, (s.ctx c).expireTicks ≤ (s.ctx x).expireTicks) ∧
      ((s.ctx c).expireTicks ≤ s.now ∧ t = ⟨0, 0⟩ ∨
        s.now < (s.ctx c).expireTicks ∧ t = splitTicks (s.ctx c).expireTicks s.now) := by
  obtain ⟨c, hc, rfl⟩ := Option.map_eq_some_iff.1 h
  obtain ⟨h1, h2⟩ := earliest_le hS hc
  refine ⟨c, h1, h2, ?_⟩
  by_cases hlt : s.now < (s.ctx c).expireTicks
  · exact .inr ⟨hlt, if_pos hlt⟩
  · exact .inl ⟨Nat.not_lt.1 hlt, if_neg hlt⟩

theorem splitTicks_valid {d now : Nat} (hlt : now < d) (hd : d < now + 2 ^ 63) :
    (splitTicks d now).Valid := by
  have hdiff : ((d : Int) - now).bmod (2 ^ 64) = d - now :=
    Int.bmod_eq_of_le (by omega) (by omega)
  unfold splitTicks Timespec.Valid
  rw [hdiff]
  exact ⟨Int.tdiv_nonneg (by omega) (by decide), Int.tmod_nonneg _ (by omega),
    Int.tmod_lt_of_pos _ (by decide)⟩

theorem mem_all_of_filed (ht : s.tmp = []) (hr : s.runq = []) (h : s.filed c) :
    c ∈ s.sleepq.all := by
  rcases h with h | h
  · exact h
  · rw [St.pending, ht, hr] at h
    cases h

/-- Who is set for resume or interrupt is due. -/
theorem unready_of_ahead (hT : Standing s) (ht : s.tmp = []) (hr : s.runq = [])
    (hclock : SLEEP_RESUME_NOW ≤ s.now)
    (ahead : ∀ x ∈ s.sleepq.all, s.now < (s.ctx x).expireTicks) :
    (s.ctx c).state.ready = false := by
  by_contra hready
  obtain ⟨hf, hk⟩ := hT.ready c (by simpa using hready)
  have := ahead c (mem_all_of_filed ht hr hf)
  omega

theorem asleep_of_timed (hT : Standing s) (ht : s.tmp = []) (hr : s.runq = [])
    (hpc : s.pc = .sched) (hc : (s.ctx c).state.timed) : c ∈ s.sleepq.all := by
  have hrun : s.pc.runs ≠ some c := by
    rw [hpc]
    exact Option.some_ne_none c ∘ Eq.symm
  exact mem_all_of_filed ht hr ((hT.timed c hc).resolve_right hrun)

end

/-! ## Blocking -/

/-- Nobody can run before the kernel comes back: no thread is set for resume or
interrupt, and the deadlines of all timed waits lie ahead, the first of them at
the end of the timeout. -/
structure Idle (s : St) (tmout : Option Timespec) : Prop where
  unready : ∀ c, (s.ctx c).state.ready = false
  asleep : ∀ c, (s.ctx c).state.timed → c ∈ s.sleepq.all
  ahead : ∀ c ∈ s.sleepq.all, s.now < (s.ctx c).expireTicks
  endless : tmout = none → s.sleepq.all = []
  first : ∀ t, tmout = some t → ∃ c ∈ s.sleepq.all,
    t = splitTicks (s.ctx c).expireTicks s.now ∧
      ∀ x ∈ s.sleepq.all, (s.ctx c).expireTicks ≤ (s.ctx x).expireTicks

theorem LoopInv.idle {l : Loop} {tmout : Option Timespec} (h : LoopInv l)
    (hw : l.pc = .wait tmout) (hclock : SLEEP_RESUME_NOW ≤ l.st.now)
    (hblock : tmout ≠ some ⟨0, 0⟩) : Idle l.st tmout := by
  obtain ⟨ht, hr⟩ := h.empty (by rw [hw]; simp)
  have hto := h.timeout tmout hw
  -- what is due makes the timeout zero
  have ahead : ∀ c ∈ l.st.sleepq.all, l.st.now < (l.st.ctx c).expireTicks := by
    intro c hc
    cases hn : tmout with
    | none =>
      rw [hn] at hto
      have hnil := earliest_none (s := l.st) (by simpa [St.timeout] using hto.symm)
      rw [hnil] at hc
      cases hc
    | some t =>
      obtain ⟨x, hx, hmin, hcase⟩ := timeout_cases h.sleep (hto.symm.trans hn)
      rcases hcase with ⟨-, rfl⟩ | ⟨hlt, -⟩
      · exact absurd hn hblock
      · exact Nat.lt_of_lt_of_le hlt (hmin c hc)
  refine ⟨fun c => unready_of_ahead h.standing ht hr hclock ahead,
    fun c hc => asleep_of_timed h.standing ht hr
      (h.sched (by rw [hw]; simp) (by rw [hw]; simp)) hc, ahead, fun hn => ?_, fun t hn => ?_⟩
  · rw [hn] at hto
    exact earliest_none (by simpa [St.timeout] using hto.symm)
  · obtain ⟨c, hc, hmin, hcase⟩ := timeout_cases h.sleep (hto.symm.trans hn)
    rcases hcase with ⟨-, rfl⟩ | ⟨-, ht⟩
    · exact absurd hn hblock
    · exact ⟨c, hc, ht, hmin⟩

/-- Thread 0 sleeps for 5 ms from 10 on, and thread 1 waits for descriptor 5. -/
def oneSleepsOneReads : List LoopEvent :=
  [.thread (.call (.spawn 0)), .thread (.call (.spawn 0)), .call, .test 10, .thread .next,
    .thread (.block (.sleep .msec 5) false), .thread .next, .wait ⟨.waitForRead, 5⟩ false, .timeout]

/-- Why `mnthr_loop` returned, from `l` to `l'`. -/
inductive LoopEnd (l l' : Loop) : Prop
  | shutdown (h : l.shutdown = true)
  /-- who sleeps does so for 2^63 ticks or more -/
  | far (hr : l'.kevres = -1) (hne : l.st.sleepq.all ≠ [])
    (h : ∀ c ∈ l.st.sleepq.all, l.st.now + 2 ^ 63 ≤ (l.st.ctx c).expireTicks)
  /-- `kevent` had no room for an error -/
  | full (hr : l'.kevres = -1) (n : Nat) (refused : List Bool)
    (h : l.kev.keventError n refused ≠ none)
  /-- nothing is queued, registered or to be registered -/
  | finished (hr : l'.kevres = 0) (hq : l'.st.sleepq.all = [])
    (hk : l'.kevents0 = [] ∧ l'.eventCount = 0)
    (ht : ∀ c, (l'.st.ctx c).state.ready = false ∧ (l'.st.ctx c).state.timed = false)

section
variable {D : KevBuild} {l l' : Loop} {e : LoopEvent}

theorem LoopInv.answered {tmout : Option Timespec} (h : LoopInv l) (h' : LoopInv l')
    (hw : l.pc = .wait tmout) (hq : l'.st.sleepq = l.st.sleepq) (ha : l.Answered tmout l')
    (hout : l'.pc = .out) : LoopEnd l l' := by
  have hto := h.timeout tmout hw
  cases ha with
  | goesOn hgo => rw [hout] at hgo; rcases hgo with hgo | hgo <;> cases hgo
  | stuck hn hc hr hp =>
    rw [hn] at hto
    have hall : l'.st.sleepq.all = [] := by
      rw [hq]
      exact earliest_none (by simpa [St.timeout] using hto.symm)
    obtain ⟨ht, hr'⟩ := h'.empty (by rw [hout]; simp)
    have none_filed : ∀ c, ¬ l'.st.filed c := fun c hf => by
      have := mem_all_of_filed ht hr' hf
      rw [hall] at this
      cases this
    refine .finished hr hall hc fun c => ⟨?_, ?_⟩
    · by_contra hready
      exact none_filed c (h'.standing.ready c (by simpa using hready)).1
    · by_contra htimed
      have hrun : l'.st.pc.runs ≠ some c := by
        rw [h'.sched (by rw [hout]; simp) (by rw [hout]; simp)]
        exact Option.some_ne_none c ∘ Eq.symm
      exact none_filed c ((h'.standing.timed c (by simpa using htimed)).resolve_right hrun)
  | invalid t hn hv hr hp =>
    obtain ⟨c, hc, hmin, hcase⟩ := timeout_cases h.sleep (hto.symm.trans hn)
    rcases hcase with ⟨-, rfl⟩ | ⟨hlt, rfl⟩
    · exact absurd (by decide) hv
    · refine .far hr (List.ne_nil_of_mem hc) fun x hx => ?_
      by_contra hx'
      exact hv (splitTicks_valid hlt (by have := hmin x hx; omega))
  | full n refused hk hr hp => exact .full hr n refused hk

theorem loopEnd_step (h : LoopInv l) (hc : CalmLoop D l e) (hs : l.step D e = some l')
    (hin : l.pc ≠ .out) (hout : l'.pc = .out) : LoopEnd l l' := by
  have h' := loopInv_step h hc hs
  have hp := Loop.phase_step hs
  cases e with
  | call => exact absurd hp.1 hin
  | test v =>
    by_cases hsh : l.shutdown
    · exact .shutdown hsh
    · rw [hp.2, if_neg hsh] at hout; cases hout
  | thread | shutdown | close => exact absurd (hp.2 ▸ hout) hin
  | wait => exact absurd (hp ▸ hout) hin
  | timeout => rw [hp.2.2.2.2.2] at hout; cases hout
  | kevent v a =>
    obtain ⟨tmout, hw, -, hans⟩ := hp
    exact h.answered h' hw (by rw [Loop.kevent_tick hs]) hans hout
  | idle f =>
    obtain ⟨tmout, hw, -, heq, hans⟩ := hp
    exact h.answered h' hw (by rw [heq]) hans hout
  | entry | done => rw [hp.2.2] at hout; cases hout

end

/-- The only thread gives up. -/
def oneGivesUp : List LoopEvent :=
  [.thread (.call (.spawn 0)), .call, .test 10, .thread .next,
    .thread (.block .giveup false), .timeout]

end Mnthr

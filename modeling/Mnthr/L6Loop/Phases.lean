import Mnthr.L3Micro.Clock
import Mnthr.L4Inv.Standing
import Mnthr.L5Runs.KevResumes
import Mnthr.L5Runs.Sleep
import Mnthr.L6Loop.Machine

/-!
# The phases of the main loop

`phase_step` says how `mnthr_loop` moves from one statement to the next and
what it has tested on the way. A run of the loop is a run of the scheduler
(`loop_projects`), so what every calm event of the scheduler keeps holds in
the loop; `LoopInv` adds what ties the scheduler to the phase: outside the sift
no batch is under way, and outside the sift and the batch loop no thread runs.
-/
namespace Mnthr
open St

/-! ## The scheduler outside the sift -/

section
variable {D : Diag} {a : Act} {e : Event} {s s' u v : St}

/-- The batch changes by the sift only. -/
theorem siftBatch_micro (ha : May s e a) (hm : Micro D a u v) (h1 : e ≠ .sift) (h2 : e ≠ .next) :
    v.tmp = u.tmp ∧ v.runq = u.runq := by
  cases hm with
  | wake => unfold woken; split <;> exact ⟨rfl, rfl⟩
  | @discard _ _ c poll hpc hp =>
    cases poll with
    | false => exact absurd ha.1 h2
    | true => cases hp; exact ⟨rfl, rfl⟩
  | @enter _ _ _ c poll hpc hp hst hs =>
    cases poll with
    | false => exact absurd ha.1 h2
    | true =>
      cases hp
      rcases enter_cases hs with ⟨-, rfl⟩ | ⟨-, -, rfl⟩ <;> exact ⟨rfl, rfl⟩
  | sift => exact absurd ha h1
  | _ => exact ⟨rfl, rfl⟩

/-- A call that does not yield leaves the thread running, or none. -/
theorem call_micro {op : Op} (ha : May s (.call op) a) (hm : Micro D a u v) : v.pc = u.pc := by
  cases hm with
  | enterLib | append | yield | sleepYield => simp [May, suspends] at ha
  | complete | removeMe => obtain ⟨⟨_, h⟩, -⟩ := ha; cases h
  | die | quit => cases ha.1
  | wake => unfold woken; split <;> rfl
  | discard hpc hp => cases hp <;> rfl
  | @enter _ _ _ c poll =>
    cases poll with
    | false => cases ha.1
    | true => obtain ⟨_, h, -⟩ := ha; cases h
  | sift => cases ha
  | _ => rfl

theorem begin_frame (hb : Begin D s e u) : u.tmp = s.tmp ∧ u.runq = s.runq ∧ u.pc = s.pc := by
  cases hb with
  | same => exact ⟨rfl, rfl, rfl⟩
  | create hc hm => cases hm <;> exact ⟨rfl, rfl, rfl⟩

theorem siftBatch_step (hI : Inv s) (hs : s.step D e = some s') (h1 : e ≠ .sift) (h2 : e ≠ .next) :
    s'.tmp = s.tmp ∧ s'.runq = s.runq := by
  obtain ⟨s1, hb, hch⟩ := step_micro hI.base hs
  obtain ⟨hb1, hb2, -⟩ := begin_frame hb
  refine hch.inv (I := fun u => u.tmp = s.tmp ∧ u.runq = s.runq) ?_ ⟨hb1, hb2⟩
  intro a u v ha hm hu
  obtain ⟨h3, h4⟩ := siftBatch_micro ha hm h1 h2
  exact ⟨h3.trans hu.1, h4.trans hu.2⟩

theorem call_step {op : Op} (hI : Inv s) (hs : s.step D (.call op) = some s') : s'.pc = s.pc := by
  obtain ⟨s1, hb, hch⟩ := step_micro hI.base hs
  exact hch.inv (I := fun u => u.pc = s.pc) (fun a u v ha hm hu => (call_micro ha hm).trans hu)
    (begin_frame hb).2.2

end

namespace Loop

/-! ## Frame -/

/-- The loop stays where it is. -/
structure Aside (l l' : Loop) : Prop where
  st : l'.st = l.st
  pc : l'.pc = l.pc
  shutdown : l'.shutdown = l.shutdown
  kevres : l'.kevres = l.kevres

section
variable {l l' l1 : Loop}

theorem Aside.trans (h : Aside l l1) (h' : Aside l1 l') : Aside l l' :=
  ⟨h'.st.trans h.st, h'.pc.trans h.pc, h'.shutdown.trans h.shutdown, h'.kevres.trans h.kevres⟩

theorem aside_keep (l : Loop) (k : KevSt) : Aside l (l.keep k) := ⟨rfl, rfl, rfl, rfl⟩

theorem aside_clearEvent (l : Loop) (t : Ptr) : Aside l (l.clearEvent t) := by
  unfold clearEvent
  split
  · exact ⟨rfl, rfl, rfl, rfl⟩
  · exact aside_keep _ _

theorem aside_clearPdata (l : Loop) (t : Ptr) : Aside l (l.clearPdata t) := ⟨rfl, rfl, rfl, rfl⟩

theorem aside_foldl {f : Loop → Ptr → Loop} (hf : ∀ l t, Aside l (f l t)) (ts : List Ptr) :
    ∀ l, Aside l (ts.foldl f l) := by
  induction ts with
  | nil => exact fun l => ⟨rfl, rfl, rfl, rfl⟩
  | cons t ts ih => exact fun l => (hf l t).trans (ih _)

theorem aside_events (l : Loop) (e : Event) :
    Aside l ((l.st.finalizes e).foldl clearPdata ((l.st.interrupts e).foldl clearEvent l)) :=
  (aside_foldl aside_clearEvent _ l).trans (aside_foldl aside_clearPdata _ _)

theorem aside_entry (h : l.entry = some l') : Aside l l' := by
  have hset : ∀ (l : Loop) t p, Aside l (l.setPdata t p) := fun _ _ _ => ⟨rfl, rfl, rfl, rfl⟩
  unfold entry at h
  split at h
  · cases h
  · split at h
    · cases h
    · rename_i iter kev rest hb hid
      have h2 : Aside l (if kev.error then { l with batch := rest } else
          { l with batch := rest }.keep ({ l with batch := rest }.kev.discardEvent kev.pair
            kev.udata)) := by
        split <;> exact ⟨rfl, rfl, rfl, rfl⟩
      simp only at h
      split at h
      · obtain ⟨bit, -, rfl⟩ := Option.map_eq_some_iff.1 h
        exact h2.trans (hset _ _ _)
      · cases h
        exact h2.trans (hset _ _ _)

end

/-! ## From one phase to the next -/

/-- What the call of `kevent` with timeout `tmout` leads to. -/
inductive Answered (l : Loop) (tmout : Option Timespec) (l' : Loop) : Prop
  /-- the loop goes on -/
  | goesOn (h : l'.pc = .top ∨ l'.pc = .batch)
  /-- nothing is registered and nothing sleeps -/
  | stuck (h : tmout = none) (hc : l'.kevents0 = [] ∧ l'.eventCount = 0) (hr : l'.kevres = 0)
      (hp : l'.pc = .out)
  /-- the timeout is not valid -/
  | invalid (t : Timespec) (h : tmout = some t) (hv : ¬ t.Valid) (hr : l'.kevres = -1)
      (hp : l'.pc = .out)
  /-- a change failed, with no room to report it -/
  | full (n : Nat) (refused : List Bool) (h : l.kev.keventError n refused ≠ none)
      (hr : l'.kevres = -1) (hp : l'.pc = .out)

/-- A step of the loop, by what it does to the phase. -/
def Phase (l l' : Loop) : LoopEvent → Prop
  | .call => l.pc = .out ∧ l'.pc = .top
  | .test _ => l.pc = .top ∧ l'.pc = if l.shutdown then .out else .sift
  | .thread e => l.mayRun e ∧ l'.pc = l.pc
  | .shutdown | .close _ => l.mayCall ∧ l'.pc = l.pc
  | .wait _ _ => l'.pc = l.pc
  | .timeout => l.pc = .sift ∧ l.st.pc = .sched ∧ l.st.tmp = [] ∧ l.st.runq = [] ∧
      l'.st = l.st ∧ l'.pc = .wait l.st.timeout
  | .kevent _ _ => ∃ tmout, l.pc = .wait tmout ∧ l.passes ∧ Answered l tmout l'
  | .idle _ => ∃ tmout, l.pc = .wait tmout ∧ ¬ l.passes ∧ l'.st = l.st ∧ Answered l tmout l'
  | .entry => l.pc = .batch ∧ l.st.pc = .sched ∧ l'.pc = .batch
  | .done => l.pc = .batch ∧ l.st.pc = .sched ∧ l'.pc = .top

section
variable {D : KevBuild} {l l' l1 : Loop} {e : LoopEvent} {tmout : Option Timespec}

theorem kevent_answered {a : KevAnswer} (ha : l.answers tmout a)
    (h : l.kevent tmout a = some l1) : Answered l tmout l1 := by
  cases a with
  | entries refused fired =>
    obtain ⟨k, hk, rfl⟩ := Option.map_eq_some_iff.1 h
    have h0 : k.kevents0 = [] ∧ k.eventCount = l.eventCount := by
      unfold KevSt.kevent at hk
      simp only at hk
      split at hk
      · cases hk; exact ⟨rfl, rfl⟩
      · cases hk
    by_cases hres : l.kev.results refused fired = [] ∧ l.eventCount = 0
    · cases tmout with
      | none =>
        exact .stuck rfl ⟨h0.1, h0.2.trans hres.2⟩ (by simp [hres.1]) (by simp [hres])
      | some t => exact .goesOn (.inl (by simp [hres]))
    · exact .goesOn (.inr (by simp only [if_neg hres]))
  | failed eintr refused =>
    cases h
    by_cases hgo : eintr = true ∨ l.eventCount = 0
    · exact .goesOn (.inl (by simp only [if_pos hgo]))
    · obtain ⟨t, ht, hv⟩ := ha.2 (by simpa using (not_or.1 hgo).1)
      exact .invalid t (Option.mem_def.1 ht) hv rfl (by simp only [if_neg hgo])
  | full n refused =>
    obtain ⟨k, hk, rfl⟩ := Option.map_eq_some_iff.1 h
    by_cases h0 : l.eventCount = 0
    · exact .goesOn (.inl (by simp only [if_pos h0]))
    · exact .full n refused (by rw [hk]; exact Option.some_ne_none k) rfl (by simp only [if_neg h0])

theorem idle_answered {failure : Option Bool} (hp : ¬ l.passes)
    (h : l.idle failure tmout = some l1) : Answered l tmout l1 := by
  obtain ⟨h0, h1⟩ := not_or.1 hp
  cases tmout with
  | none => cases h; exact .stuck rfl ⟨not_not.1 h0, not_not.1 h1⟩ rfl rfl
  | some t =>
    simp only [idle] at h
    split at h
    · cases h; exact .goesOn (.inl rfl)
    · split at h
      · rename_i hf
        cases h
        by_cases hff : failure = some false
        · exact .invalid t rfl (hf.1 hff) (by simp [hff]) (by simp only [if_pos hff])
        · exact .goesOn (.inl (by simp only [if_neg hff]))
      · cases h

theorem step_some (h : l.step D e = some l') : ∃ l1, l.backend D e = some l1 ∧
    exec (St.step D.toDiag) l.st (l.parts D e) = some l'.st ∧ l' = { l1 with st := l'.st } := by
  obtain ⟨l1, h1, h⟩ := Option.bind_eq_some_iff.1 h
  obtain ⟨s, hs, rfl⟩ := Option.map_eq_some_iff.1 h
  exact ⟨l1, h1, hs, rfl⟩

/-- A step with no part in the scheduler. -/
theorem step_apart (h : l.step D e = some l') (he : l.parts D e = []) : l'.st = l.st := by
  obtain ⟨l1, -, hs, -⟩ := step_some h
  rw [he] at hs
  exact (Option.some.inj hs).symm

theorem test_shutdown {v : Nat} (h : l.step D (.test v) = some l') (hsh : l.shutdown = true) :
    l'.st = l.st :=
  step_apart h (by simp only [parts, hsh, if_true])

/-- The test of the `while` begins a sift. -/
theorem test_sifts {v : Nat} (h : l.step D (.test v) = some l') (hsh : l.shutdown = false) :
    ({ l.st with now := v } : St).sift = some l'.st := by
  obtain ⟨l1, -, hs, -⟩ := step_some h
  simp only [parts, hsh, Bool.false_eq_true, if_false] at hs
  obtain ⟨u, hu, hs⟩ := exec_cons hs
  obtain ⟨w, hw, hs⟩ := exec_cons hs
  cases hs
  rw [tick_eq hu] at hw
  exact hw

/-- The kernel sets the clock. -/
theorem kevent_tick {v : Nat} {a : KevAnswer} (h : l.step D (.kevent v a) = some l') :
    l'.st = { l.st with now := v } := by
  obtain ⟨l1, -, hs, -⟩ := step_some h
  obtain ⟨u, hu, hs⟩ := exec_cons hs
  rw [← Option.some.inj hs]
  exact tick_eq hu

/-- A run of the loop is one of the scheduler. -/
theorem loop_projects (D : KevBuild) :
    Projects (step D) (St.step D.toDiag) Loop.st (parts D) := by
  intro l e l' h
  obtain ⟨l1, -, hs, -⟩ := step_some h
  exact hs

theorem Answered.withSt {s : St} (h : Answered l tmout l1) :
    Answered l tmout { l1 with st := s } := by
  cases h with
  | goesOn h => exact .goesOn h
  | stuck h hc hr hp => exact .stuck h hc hr hp
  | invalid t h hv hr hp => exact .invalid t h hv hr hp
  | full n refused h hr hp => exact .full n refused h hr hp

theorem phase_step (h : l.step D e = some l') : Phase l l' e := by
  obtain ⟨l1, hb, hs, he⟩ := step_some h
  have hpc : l'.pc = l1.pc := by rw [he]
  cases e with
  | call | test =>
    simp only [backend] at hb
    split at hb
    · cases hb; exact ⟨‹_›, hpc⟩
    · cases hb
  | wait =>
    obtain ⟨t, -, rfl⟩ := Option.map_eq_some_iff.1 hb
    exact hpc
  | thread e =>
    simp only [backend] at hb
    split at hb
    · refine ⟨‹_›, hpc.trans ?_⟩
      split at hb
      · obtain ⟨k, -, rfl⟩ := Option.map_eq_some_iff.1 hb; rfl
      · cases hb; exact (aside_events l _).pc
    · cases hb
  | shutdown | close =>
    simp only [backend] at hb
    split at hb
    · cases hb; exact ⟨‹_›, hpc⟩
    · cases hb
  | timeout =>
    simp only [backend] at hb
    split at hb
    · rename_i hc
      cases hb
      exact ⟨hc.1, hc.2.1, hc.2.2.1, hc.2.2.2, (Option.some.inj hs).symm, hpc⟩
    · cases hb
  | kevent v a =>
    simp only [backend] at hb
    split at hb
    · split at hb
      · rename_i tmout hw hc
        exact ⟨tmout, hw, hc.1, he ▸ (kevent_answered hc.2 hb).withSt⟩
      · cases hb
    · cases hb
  | idle failure =>
    simp only [backend] at hb
    split at hb
    · split at hb
      · cases hb
      · rename_i tmout hw hc
        exact ⟨tmout, hw, hc, (Option.some.inj hs).symm, he ▸ (idle_answered hc hb).withSt⟩
    · cases hb
  | entry =>
    simp only [backend] at hb
    split at hb
    · rename_i hc
      obtain ⟨l2, h2, rfl⟩ := Option.map_eq_some_iff.1 hb
      refine ⟨hc.1, hc.2, ?_⟩
      rw [hpc, ← hc.1, ← (aside_entry h2).pc]
      exact (aside_foldl aside_clearPdata _ l2).pc
    · cases hb
  | done =>
    simp only [backend] at hb
    split at hb
    · rename_i hc
      cases hb
      exact ⟨hc.1, hc.2.1, hpc⟩
    · cases hb

/-- Nobody clears the flag. -/
theorem shutdown_step (h : l.step D e = some l') :
    l'.shutdown = true ↔ l.shutdown = true ∨ e = .shutdown := by
  obtain ⟨l1, hb, -, he⟩ := step_some h
  rw [show l'.shutdown = l1.shutdown by rw [he]]
  have same : l1.shutdown = l.shutdown → e ≠ .shutdown →
      (l1.shutdown = true ↔ l.shutdown = true ∨ e = .shutdown) := by
    intro h1 h2
    simp [h1, h2]
  cases e with
  | shutdown =>
    simp only [backend] at hb
    split at hb
    · cases hb; simp
    · cases hb
  | wait =>
    obtain ⟨t, -, rfl⟩ := Option.map_eq_some_iff.1 hb
    exact same rfl (by simp)
  | thread k =>
    simp only [backend] at hb
    split at hb
    · refine same ?_ (by simp)
      split at hb
      · obtain ⟨k, -, rfl⟩ := Option.map_eq_some_iff.1 hb; rfl
      · cases hb; exact (aside_events l _).shutdown
    · cases hb
  | kevent v a =>
    simp only [backend] at hb
    refine same ?_ (by simp)
    split at hb
    · split at hb
      · cases a with
        | failed => cases hb; rfl
        | entries | full => obtain ⟨k, -, rfl⟩ := Option.map_eq_some_iff.1 hb; rfl
      · cases hb
    · cases hb
  | idle f =>
    simp only [backend] at hb
    refine same ?_ (by simp)
    split at hb
    · split at hb
      · cases hb
      · unfold idle at hb
        split at hb
        · cases hb; rfl
        · split at hb
          · cases hb; rfl
          · split at hb
            · cases hb; rfl
            · cases hb
    · cases hb
  | entry =>
    simp only [backend] at hb
    refine same ?_ (by simp)
    split at hb
    · obtain ⟨l2, h2, rfl⟩ := Option.map_eq_some_iff.1 hb
      exact (aside_foldl aside_clearPdata _ l2).shutdown.trans (aside_entry h2).shutdown
    · cases hb
  | _ =>
    simp only [backend] at hb
    split at hb
    · cases hb; exact same rfl (by simp)
    · cases hb

end
end Loop

/-! ## What holds in every phase -/

section
variable {D : Diag} {e : Event} {s s' : St} {es : List Event}

theorem siftBatch_exec (hI : Inv s) (hs : exec (St.step D) s es = some s')
    (hn : ∀ e ∈ es, e ≠ .sift ∧ e ≠ .next) : s'.tmp = s.tmp ∧ s'.runq = s.runq := by
  refine (exec_inv (I := fun u => Inv u ∧ u.tmp = s.tmp ∧ u.runq = s.runq)
    (C := fun _ e => e ≠ .sift ∧ e ≠ .next) ?_ ⟨hI, rfl, rfl⟩ (along_of_forall hn) hs).2
  intro u e v hu hc hstep
  obtain ⟨h1, h2⟩ := siftBatch_step hu.1 hstep hc.1 hc.2
  exact ⟨inv_step hu.1 hstep, h1.trans hu.2.1, h2.trans hu.2.2⟩

/-- While no thread runs, the scheduler is left to the loop and to code
outside. -/
theorem sched_step (hI : Inv s) (hpc : s.pc = .sched) (hs : s.step D e = some s')
    (hb : e.ofBackend = false) :
    (e = .next) ∨ (s'.pc = .sched ∧ ((∃ op, e = .call op) ∨ ∃ v, e = .tick v)) := by
  cases e with
  | call op => exact .inr ⟨(call_step hI hs).trans hpc, .inl ⟨op, rfl⟩⟩
  | block | cont | exit => simp [St.step, hpc] at hs
  | next => exact .inl rfl
  | tick v =>
    simp only [St.step] at hs
    split at hs
    · cases hs; exact .inr ⟨hpc, .inr ⟨v, rfl⟩⟩
    · cases hs
  | sift | pollResume | pollFast => cases hb

end

/-- What the step does in the scheduler is calm. -/
def CalmLoop (D : KevBuild) (l : Loop) (e : LoopEvent) : Prop :=
  Along (St.step D.toDiag) Calm l.st (l.parts D e)

structure LoopInv (l : Loop) : Prop where
  inv : Inv l.st
  sleep : SleepInv l.st
  standing : Standing l.st
  empty : l.pc ≠ .sift → l.st.tmp = [] ∧ l.st.runq = []
  sched : l.pc ≠ .sift → l.pc ≠ .batch → l.st.pc = .sched
  timeout : ∀ tmout, l.pc = .wait tmout → tmout = l.st.timeout

theorem loopInv_init (objs : Objs) (now : Nat) : LoopInv (.init objs now) where
  inv := inv_init objs now
  sleep := sinv_init objs now
  standing := standing_init objs now
  empty _ := ⟨rfl, rfl⟩
  sched _ _ := rfl
  timeout := by simp [Loop.init]

section
variable {D : KevBuild} {l l' : Loop} {e : LoopEvent}

theorem parts_thread (D : KevBuild) (l : Loop) (k : Event) : l.parts D (.thread k) = [k] ∨
    ∃ b, k = .cont b ∧ l.parts D (.thread k) = [.cont b, .call (.pollFail false)] := by
  cases k with
  | cont b =>
    unfold Loop.parts
    simp only
    split
    · split
      · exact .inr ⟨b, rfl, rfl⟩
      · exact .inl rfl
    · exact .inl rfl
  | _ => exact .inl rfl

/-- The step in which the sift goes on. -/
theorem parts_next (h : Event.next ∈ l.parts D e) : e = .thread .next := by
  cases e with
  | thread k =>
    rcases parts_thread D l k with he | ⟨b, rfl, he⟩
    · rw [he, List.mem_singleton] at h
      rw [h]
    · simp [he] at h
  | test v => simp only [Loop.parts] at h; split at h <;> simp at h
  | entry =>
    simp only [Loop.parts] at h
    split at h
    · split at h <;> simp at h
    · cases h
  | wait | shutdown | kevent => simp [Loop.parts] at h
  | _ => cases h

/-- The step in which a sift begins. -/
theorem parts_sift (hp : Loop.Phase l l' e) (h : Event.sift ∈ l.parts D e) :
    ∃ v, e = .test v ∧ l.shutdown = false := by
  cases e with
  | test v =>
    refine ⟨v, rfl, ?_⟩
    simp only [Loop.parts] at h
    split at h
    · cases h
    · simpa using ‹¬ l.shutdown = true›
  | thread k =>
    rcases parts_thread D l k with he | ⟨b, rfl, he⟩
    · rw [he, List.mem_singleton] at h
      have hb := hp.1.1
      rw [← h] at hb
      cases hb
    · simp [he] at h
  | entry =>
    simp only [Loop.parts] at h
    split at h
    · split at h <;> simp at h
    · cases h
  | wait | shutdown | kevent => simp [Loop.parts] at h
  | _ => cases h

theorem parts_plain (hp : Loop.Phase l l' e) (ht : ∀ v, e ≠ .test v) (hpc : l.pc ≠ .sift) :
    ∀ k ∈ l.parts D e, k ≠ .sift ∧ k ≠ .next := by
  intro k hk
  refine ⟨fun h => ?_, fun h => ?_⟩
  · obtain ⟨v, he, -⟩ := parts_sift hp (h ▸ hk)
    exact ht v he
  · have he := parts_next (h ▸ hk)
    rw [he] at hp
    exact hpc (hp.1.2.1 rfl)

/-- While no thread runs and `mnthr_loop` is in another phase than the sift,
only code outside it calls the API. -/
theorem quiet_step (hI : Inv l.st) (hpc : l.st.pc = .sched) (hne : l.pc ≠ .sift)
    (hs : l.step D e = some l') (h : (∃ k, e = .thread k) ∨ (∃ w b, e = .wait w b) ∨ e = .shutdown) :
    l.pc = .out ∧ l'.st.pc = .sched := by
  have hp := Loop.phase_step hs
  obtain ⟨l1, -, hst, -⟩ := Loop.step_some hs
  rcases h with ⟨k, rfl⟩ | ⟨w, b, rfl⟩ | rfl
  · have hb : k.ofBackend = false := hp.1.1
    rcases parts_thread D l k with he | ⟨b, rfl, he⟩
    · rw [he] at hst
      obtain ⟨u, hu, hr⟩ := exec_cons hst
      cases hr
      rcases sched_step hI hpc hu hb with rfl | ⟨hu', hk⟩
      · exact absurd (hp.1.2.1 rfl) hne
      · refine ⟨?_, hu'⟩
        rcases hk with ⟨op, rfl⟩ | ⟨v, rfl⟩
        all_goals exact hp.1.2.2.out hpc
    · rw [he] at hst
      obtain ⟨u, hu, -⟩ := exec_cons hst
      simp [St.step, hpc] at hu
  · obtain ⟨u, hu, -⟩ := exec_cons hst
    simp [St.step, hpc] at hu
  · obtain ⟨u, hu, hr⟩ := exec_cons hst
    cases hr
    exact ⟨hp.1.out hpc, (call_step hI hu).trans hpc⟩

theorem Loop.Answered.pc_cases {tmout : Option Timespec} (h : l.Answered tmout l') :
    l'.pc = .top ∨ l'.pc = .batch ∨ l'.pc = .out := by
  cases h with
  | goesOn h => exact h.imp id .inl
  | stuck _ _ _ hp | invalid _ _ _ _ hp | full _ _ _ _ hp => exact .inr (.inr hp)

/-- The sift ends when its batch is empty. -/
theorem leaves_sift (hp : Loop.Phase l l' e) (hpc : l.pc = .sift) (hpc' : l'.pc ≠ .sift) :
    e = .timeout := by
  cases e with
  | timeout => rfl
  | thread | shutdown | close => exact absurd (hp.2.trans hpc) hpc'
  | wait => exact absurd (hp.trans hpc) hpc'
  | kevent | idle => obtain ⟨_, hw, -⟩ := hp; rw [hpc] at hw; cases hw
  | _ => have h1 := hp.1; rw [hpc] at h1; cases h1

theorem loopInv_step (h : LoopInv l) (hc : CalmLoop D l e) (hs : l.step D e = some l') :
    LoopInv l' := by
  have hp := Loop.phase_step hs
  obtain ⟨hI, hS, hT⟩ := (Loop.loop_projects D).inv (I := fun u => Inv u ∧ SleepInv u ∧ Standing u)
    (C := Calm) (fun u k v hu hk hv => ⟨inv_step hu.1 hv, sinv_step hu.1 hu.2.1 hk hv,
      standing_step hu.2.2 hu.1 hu.2.1 hk hv⟩) hs ⟨h.inv, h.sleep, h.standing⟩ hc
  obtain ⟨l1, -, hst, -⟩ := Loop.step_some hs
  have same := Loop.step_apart hs
  have quiet := fun hpc hne => quiet_step (e := e) h.inv hpc hne hs
  refine ⟨hI, hS, hT, fun hpc' => ?_, fun h1 h2 => ?_, fun tmout hw => ?_⟩
  · by_cases hpc : l.pc = .sift
    · obtain rfl := leaves_sift hp hpc hpc'
      obtain ⟨-, -, ht, hr, heq, -⟩ := hp
      exact ⟨heq ▸ ht, heq ▸ hr⟩
    · by_cases ht : ∃ v, e = .test v
      · obtain ⟨v, rfl⟩ := ht
        have hsh : l.shutdown = true := by
          by_contra hsh
          exact hpc' (hp.2.trans (if_neg hsh))
        rw [same (by simp [Loop.parts, hsh])]
        exact h.empty hpc
      · obtain ⟨h1, h2⟩ := siftBatch_exec h.inv hst
          (parts_plain hp (fun v hv => ht ⟨v, hv⟩) hpc)
        exact ⟨h1.trans (h.empty hpc).1, h2.trans (h.empty hpc).2⟩
  · cases e with
    | call => rw [same rfl]; exact h.sched (by rw [hp.1]; simp) (by rw [hp.1]; simp)
    | test v =>
      have hsh : l.shutdown = true := by
        by_contra hsh
        exact h1 (hp.2.trans (if_neg hsh))
      rw [same (by simp [Loop.parts, hsh])]
      exact h.sched (by rw [hp.1]; simp) (by rw [hp.1]; simp)
    | thread k =>
      have hne := hp.2 ▸ h1
      exact (quiet (h.sched hne (hp.2 ▸ h2)) hne (.inl ⟨k, rfl⟩)).2
    | wait w b =>
      have hne := hp ▸ h1
      exact (quiet (h.sched hne (hp ▸ h2)) hne (.inr (.inl ⟨w, b, rfl⟩))).2
    | shutdown =>
      have hne := hp.2 ▸ h1
      exact (quiet (h.sched hne (hp.2 ▸ h2)) hne (.inr (.inr rfl))).2
    | close fd => rw [same rfl]; exact h.sched (hp.2 ▸ h1) (hp.2 ▸ h2)
    | timeout => rw [same rfl]; exact hp.2.1
    | kevent v a =>
      obtain ⟨tmout, hw, -⟩ := hp
      rw [Loop.kevent_tick hs]
      exact h.sched (by rw [hw]; simp) (by rw [hw]; simp)
    | idle f =>
      obtain ⟨tmout, hw, -, heq, -⟩ := hp
      rw [heq]
      exact h.sched (by rw [hw]; simp) (by rw [hw]; simp)
    | entry => exact absurd hp.2.2 h2
    | done => rw [same rfl]; exact hp.2.1
  · -- at the wait, nothing but its end is possible
    have stuck : l.pc = .wait tmout → ¬ ((∃ k, e = .thread k) ∨ (∃ w b, e = .wait w b) ∨
        e = .shutdown) := fun hpc he => by
      have := (quiet (h.sched (by rw [hpc]; simp) (by rw [hpc]; simp)) (by rw [hpc]; simp) he).1
      rw [hpc] at this
      cases this
    cases e with
    | call => rw [hp.2] at hw; cases hw
    | test v => rw [hp.2] at hw; split at hw <;> cases hw
    | thread k => exact absurd (.inl ⟨k, rfl⟩) (stuck (hp.2 ▸ hw))
    | wait w b => exact absurd (.inr (.inl ⟨w, b, rfl⟩)) (stuck (hp ▸ hw))
    | shutdown => exact absurd (.inr (.inr rfl)) (stuck (hp.2 ▸ hw))
    | close fd =>
      have hpc : l.pc = .wait tmout := hp.2 ▸ hw
      have h1 := hp.1.out (h.sched (by rw [hpc]; simp) (by rw [hpc]; simp))
      rw [hpc] at h1
      cases h1
    | timeout =>
      obtain ⟨-, -, -, -, heq, hpc⟩ := hp
      rw [heq]
      rw [hpc] at hw
      exact (LoopPc.wait.inj hw).symm
    | kevent v a =>
      obtain ⟨_, -, -, hans⟩ := hp
      rcases hans.pc_cases with h1 | h1 | h1 <;> rw [h1] at hw <;> cases hw
    | idle f =>
      obtain ⟨_, -, -, -, hans⟩ := hp
      rcases hans.pc_cases with h1 | h1 | h1 <;> rw [h1] at hw <;> cases hw
    | entry | done => rw [hp.2.2] at hw; cases hw

theorem loopInv_exec {es : List LoopEvent} (h : LoopInv l)
    (hc : Along (Loop.step D) (CalmLoop D) l es) (hr : exec (Loop.step D) l es = some l') :
    LoopInv l' :=
  exec_inv (fun _ _ _ hu hk hv => loopInv_step hu hk hv) h hc hr

end

/-- The run of `es` from the initial state of the samples. -/
def sampleLoop (es : List LoopEvent) : Option Loop :=
  exec (Loop.step .sample) (.init .sample 0) es

/-- A test of the parts of every step. -/
def checkLoop (D : KevBuild) (p : St → Event → Bool) (l : Loop) (es : List LoopEvent) : Bool :=
  checkAlong (Loop.step D) (fun l e => checkAlong (St.step D.toDiag) p l.st (l.parts D e)) l es

theorem calmLoop_of_check {D : KevBuild} {l : Loop} {es : List LoopEvent}
    (h : checkLoop D (fun s e => decide (Calm s e)) l es) :
    Along (Loop.step D) (CalmLoop D) l es :=
  along_of_check (I := fun _ => True) (fun _ _ _ _ _ => trivial)
    (fun _ _ _ hp => along_of_decide hp) trivial h

end Mnthr

import Mnthr.L6Loop.EvMachine
import Mnthr.L6Loop.Phases
import Mnthr.L6Loop.Polls

/-!
# The phases of the libev loop

As `L6Loop.Phases`: `phase_step` says how `ev_run` moves from one callback to
the next, a run of the loop is a run of the scheduler (`evLoop_projects`), and
`EvSched` ties the scheduler to the phase.
-/
namespace Mnthr
open St

namespace EvLoop

/-! ## Frame -/

/-- The loop stays where it is. -/
structure Aside (l l' : EvLoop) : Prop where
  st : l'.st = l.st
  pc : l'.pc = l.pc
  shutdown : l'.shutdown = l.shutdown

/-- A step of the loop, by what it does to the phase. -/
def Phase (l l' : EvLoop) : EvLoopEvent → Prop
  | .call => l.pc = .out ∧ l'.pc = .top
  | .prepare _ => l.pc = .top ∧ l'.pc = if l.shutdown then .out else .sift
  | .thread e => l.mayRun e ∧ l'.pc = l.pc
  | .wait .. => (∃ t, l.st.pc = .user t) ∧ l'.pc = l.pc
  | .back .. => (∃ t st, l.st.pc = .post t (.poll st)) ∧ l'.pc = l.pc
  | .shutdown => l.mayCall ∧ l'.pc = l.pc
  | .timer => l.pc = .sift ∧ l.st.pc = .sched ∧ l.st.tmp = [] ∧ l.st.runq = [] ∧
      l'.pc = .poll l.st.etimer
  | .poll _ _ => (∃ tm, l.pc = .poll tm) ∧ l'.pc = .pending
  | .event _ => l.pc = .pending ∧ l.st.pc = .sched ∧ l'.pc = .pending
  | .done => l.pc = .pending ∧ l.st.pc = .sched ∧ l'.pc = .top

section
variable {D : Diag} {H : UInt64 → Int → UInt64} {l l' l1 : EvLoop} {e : EvLoopEvent} {t : Ptr}
  {F : Frame}

theorem Aside.trans (h : Aside l l1) (h' : Aside l1 l') : Aside l l' :=
  ⟨h'.st.trans h.st, h'.pc.trans h.pc, h'.shutdown.trans h.shutdown⟩

theorem aside_keep (l : EvLoop) (k : EvSt) : Aside l (l.keep k) := ⟨rfl, rfl, rfl⟩

theorem aside_clearEvent (l : EvLoop) (t : Ptr) : Aside l (l.clearEvent t) := by
  unfold clearEvent
  split
  · exact ⟨rfl, rfl, rfl⟩
  · exact aside_keep _ _

theorem aside_clearPdata (l : EvLoop) (t : Ptr) : Aside l (l.clearPdata t) := ⟨rfl, rfl, rfl⟩

theorem aside_foldl {f : EvLoop → Ptr → EvLoop} (hf : ∀ l t, Aside l (f l t)) (ts : List Ptr) :
    ∀ l, Aside l (ts.foldl f l) := by
  induction ts with
  | nil => exact fun l => ⟨rfl, rfl, rfl⟩
  | cons t ts ih => exact fun l => (hf l t).trans (ih _)

theorem aside_events (l : EvLoop) (e : Event) :
    Aside l ((l.st.finalizes e).foldl clearPdata ((l.st.interrupts e).foldl clearEvent l)) :=
  (aside_foldl aside_clearEvent _ l).trans (aside_foldl aside_clearPdata _ _)

theorem caller_some (h : l.caller = some t) : l.st.pc = .user t := by
  unfold caller at h
  split at h
  · cases h; assumption
  · cases h

theorem waitOf_some (h : l.waitOf = some (t, F)) :
    (∃ st, l.st.pc = .post t (.poll st)) ∧ l.frame t = some F := by
  unfold waitOf at h
  split at h
  · rename_i u st hpc
    obtain ⟨G, hG, he⟩ := Option.map_eq_some_iff.1 h
    cases he
    exact ⟨⟨st, hpc⟩, hG⟩
  · cases h

/-! ## From one phase to the next -/

theorem step_some (h : l.step D H e = some l') : ∃ l1, l.backend D H e = some l1 ∧
    exec (St.step D) l.st (l.parts H e) = some l'.st ∧ l' = { l1 with st := l'.st } := by
  obtain ⟨l1, h1, h⟩ := Option.bind_eq_some_iff.1 h
  obtain ⟨s, hs, rfl⟩ := Option.map_eq_some_iff.1 h
  exact ⟨l1, h1, hs, rfl⟩

/-- A step with no part in the scheduler. -/
theorem step_apart (h : l.step D H e = some l') (he : l.parts H e = []) : l'.st = l.st := by
  obtain ⟨l1, -, hs, -⟩ := step_some h
  rw [he] at hs
  exact (Option.some.inj hs).symm

/-- A run of the loop is one of the scheduler. -/
theorem evLoop_projects (D : Diag) (H : UInt64 → Int → UInt64) :
    Projects (step D H) (St.step D) EvLoop.st (parts H) := by
  intro l e l' h
  obtain ⟨l1, -, hs, -⟩ := step_some h
  exact hs

theorem phase_step (h : l.step D H e = some l') : Phase l l' e := by
  obtain ⟨l1, hb, -, he⟩ := step_some h
  have hpc : l'.pc = l1.pc := by rw [he]
  cases e with
  | call | prepare =>
    obtain ⟨hg, hb⟩ := Option.ite_none_right_eq_some.1 hb
    cases hb
    exact ⟨hg, hpc⟩
  | thread k =>
    obtain ⟨hg, hb⟩ := Option.ite_none_right_eq_some.1 hb
    cases hb
    exact ⟨hg, hpc.trans (aside_events l k).pc⟩
  | wait fn fd b =>
    obtain ⟨t, ht, rfl⟩ := Option.map_eq_some_iff.1 hb
    exact ⟨⟨t, caller_some ht⟩, hpc⟩
  | back n b =>
    obtain ⟨⟨t, F⟩, hw, hb⟩ := Option.bind_eq_some_iff.1 hb
    obtain ⟨k, -, rfl⟩ := Option.map_eq_some_iff.1 hb
    obtain ⟨⟨st, hp⟩, -⟩ := waitOf_some hw
    exact ⟨⟨t, st, hp⟩, hpc⟩
  | shutdown =>
    obtain ⟨hg, hb⟩ := Option.ite_none_right_eq_some.1 hb
    cases hb
    exact ⟨hg, hpc⟩
  | timer =>
    obtain ⟨hg, hb⟩ := Option.ite_none_right_eq_some.1 hb
    cases hb
    exact ⟨hg.1, hg.2.1, hg.2.2.1, hg.2.2.2, hpc⟩
  | poll v ws =>
    simp only [backend] at hb
    split at hb
    · rename_i tm hp
      obtain ⟨-, hb⟩ := Option.ite_none_right_eq_some.1 hb
      cases hb
      exact ⟨⟨tm, hp⟩, hpc⟩
    · cases hb
  | event w =>
    obtain ⟨hg, hb⟩ := Option.ite_none_right_eq_some.1 hb
    obtain ⟨k, -, rfl⟩ := Option.map_eq_some_iff.1 hb
    refine ⟨hg.1, hg.2.1, hpc.trans ?_⟩
    exact ((aside_keep l k).trans (aside_foldl aside_clearPdata _ _)).pc.trans hg.1
  | done =>
    obtain ⟨hg, hb⟩ := Option.ite_none_right_eq_some.1 hb
    cases hb
    exact ⟨hg.1, hg.2.1, hpc⟩

/-- Only part of a sift are the steps that begin it and go on with it. -/
theorem parts_plain (hp : Phase l l' e) (h1 : ∀ v, e ≠ .prepare v) (h2 : e ≠ .thread .next) :
    ∀ k ∈ l.parts H e, k ≠ .sift ∧ k ≠ .next := by
  intro k hk
  cases e with
  | prepare v => exact absurd rfl (h1 v)
  | thread j =>
    obtain rfl := List.mem_singleton.1 hk
    refine ⟨?_, fun h => h2 (by rw [h])⟩
    rintro rfl
    cases hp.1.1
  | wait fn fd b =>
    simp only [parts] at hk
    split at hk
    · split at hk <;> cases List.mem_singleton.1 hk
      · exact ⟨by simp, by simp⟩
      · cases fn <;> exact ⟨by simp [EvFn.state, CoState.waiting], by simp⟩
    · cases hk
  | event w =>
    obtain ⟨c, -, rfl⟩ := List.mem_map.1 hk
    exact ⟨by simp, by simp⟩
  | back | shutdown | poll => cases List.mem_singleton.1 hk; exact ⟨by simp, by simp⟩
  | call | timer | done => cases hk

end
end EvLoop

/-! ## What holds in every phase -/

structure EvSched (l : EvLoop) : Prop where
  inv : Inv l.st
  sleep : SleepInv l.st
  standing : Standing l.st
  polls : Polls l.st
  empty : l.pc ≠ .sift → l.st.tmp = [] ∧ l.st.runq = []
  sched : l.pc ≠ .sift → l.pc ≠ .pending → l.st.pc = .sched
  timer : ∀ tm, l.pc = .poll tm → tm = l.st.etimer

theorem evSched_init (objs : Objs) (now : Nat) : EvSched (.init objs now) where
  inv := inv_init objs now
  sleep := sinv_init objs now
  standing := standing_init objs now
  polls := polls_init objs now
  empty _ := ⟨rfl, rfl⟩
  sched _ _ := rfl
  timer := by simp [EvLoop.init]

section
variable {D : Diag} {H : UInt64 → Int → UInt64} {l l' : EvLoop} {e : EvLoopEvent}

/-- While no thread runs and the loop is at the poll or before the prepare
watcher, only code outside it calls the API. -/
theorem outside_step (hI : Inv l.st) (hpc : l.st.pc = .sched) (hne : l.pc ≠ .sift)
    (hs : l.step D H e = some l')
    (h : (∃ k, e = .thread k) ∨ (∃ fn fd b, e = .wait fn fd b) ∨ (∃ n b, e = .back n b) ∨
      e = .shutdown) : l.pc = .out ∧ l'.st.pc = .sched := by
  have hp := EvLoop.phase_step hs
  obtain ⟨l1, -, hst, -⟩ := EvLoop.step_some hs
  rcases h with ⟨k, rfl⟩ | ⟨fn, fd, b, rfl⟩ | ⟨n, b, rfl⟩ | rfl
  · obtain ⟨u, hu, hr⟩ := exec_cons hst
    cases hr
    rcases sched_step hI hpc hu hp.1.1 with rfl | ⟨hu', hk⟩
    · exact absurd (hp.1.2.1 rfl) hne
    · refine ⟨?_, hu'⟩
      rcases hk with ⟨op, rfl⟩ | ⟨v, rfl⟩
      · exact hp.1.2.2.out hpc
      · exact hp.1.2.2.elim
  · obtain ⟨⟨t, ht⟩, -⟩ := hp
    rw [hpc] at ht
    cases ht
  · obtain ⟨⟨t, st, ht⟩, -⟩ := hp
    rw [hpc] at ht
    cases ht
  · obtain ⟨u, hu, hr⟩ := exec_cons hst
    cases hr
    exact ⟨hp.1.out hpc, (call_step hI hu).trans hpc⟩

theorem evSched_step (h : EvSched l) (hc : Along (St.step D) Calm l.st (l.parts H e))
    (hs : l.step D H e = some l') : EvSched l' := by
  have hp := EvLoop.phase_step hs
  obtain ⟨hI, hS, hT, hP⟩ := (EvLoop.evLoop_projects D H).inv
    (I := fun u => Inv u ∧ SleepInv u ∧ Standing u ∧ Polls u) (C := Calm)
    (fun u k v hu hk hv => ⟨inv_step hu.1 hv, sinv_step hu.1 hu.2.1 hk hv,
      standing_step hu.2.2.1 hu.1 hu.2.1 hk hv, polls_step hu.1 hu.2.1 hk hv hu.2.2.2⟩)
    hs ⟨h.inv, h.sleep, h.standing, h.polls⟩ hc
  obtain ⟨l1, -, hst, -⟩ := EvLoop.step_some hs
  have same := EvLoop.step_apart hs
  have outside := fun hpc hne => outside_step (e := e) h.inv hpc hne hs
  -- the steps of threads go on in the phase
  have goes : (∃ k, e = .thread k) ∨ (∃ fn fd b, e = .wait fn fd b) ∨ (∃ n b, e = .back n b) ∨
      e = .shutdown → l'.pc = l.pc := by
    rintro (⟨k, rfl⟩ | ⟨fn, fd, b, rfl⟩ | ⟨n, b, rfl⟩ | rfl)
    all_goals exact hp.2
  refine ⟨hI, hS, hT, hP, fun hpc' => ?_, fun h1 h2 => ?_, fun tm hw => ?_⟩
  · by_cases hprep : ∃ v, e = .prepare v
    · obtain ⟨v, rfl⟩ := hprep
      have hsh : l.shutdown = true := by
        by_contra hsh
        exact hpc' (hp.2.trans (if_neg hsh))
      rw [same (by simp [EvLoop.parts, hsh])]
      exact h.empty (by rw [hp.1]; simp)
    by_cases htimer : e = .timer
    · subst htimer
      rw [same rfl]
      exact ⟨hp.2.2.1, hp.2.2.2.1⟩
    have hne : e ≠ .thread .next := by
      rintro rfl
      exact hpc' (hp.2.trans (hp.1.2.1 rfl))
    have hpc : l.pc ≠ .sift := by
      intro hpc
      cases e with
      | thread | wait | back | shutdown => exact hpc' (hp.2.trans hpc)
      | prepare v => exact hprep ⟨v, rfl⟩
      | timer => exact htimer rfl
      | poll => obtain ⟨⟨tm, hp⟩, -⟩ := hp; rw [hpc] at hp; cases hp
      | call | event | done => have := hp.1; rw [hpc] at this; cases this
    obtain ⟨h1, h2⟩ := siftBatch_exec h.inv hst
      (EvLoop.parts_plain hp (fun v hv => hprep ⟨v, hv⟩) hne)
    exact ⟨h1.trans (h.empty hpc).1, h2.trans (h.empty hpc).2⟩
  · have idle : ∀ {pc}, l.pc = pc → pc ≠ .sift → pc ≠ .pending → l.st.pc = .sched :=
      fun he h3 h4 => h.sched (he ▸ h3) (he ▸ h4)
    cases e with
    | thread | wait | back | shutdown =>
      have hg := goes (by simp)
      exact (outside (h.sched (hg ▸ h1) (hg ▸ h2)) (hg ▸ h1) (by simp)).2
    | call => rw [same rfl]; exact idle hp.1 (by simp) (by simp)
    | prepare v =>
      have hsh : l.shutdown = true := by
        by_contra hsh
        exact h1 (hp.2.trans (if_neg hsh))
      rw [same (by simp [EvLoop.parts, hsh])]
      exact idle hp.1 (by simp) (by simp)
    | timer => rw [same rfl]; exact hp.2.1
    | poll => exact absurd hp.2 h2
    | event => exact absurd hp.2.2 h2
    | done => rw [same rfl]; exact hp.2.1
  · cases e with
    | thread | wait | back | shutdown =>
      -- at the poll, nothing but its end is possible
      have hpc : l.pc = .poll tm := (goes (by simp)).symm.trans hw
      have := (outside (h.sched (by rw [hpc]; simp) (by rw [hpc]; simp)) (by rw [hpc]; simp)
        (by simp)).1
      rw [hpc] at this
      cases this
    | timer =>
      rw [same rfl]
      rw [hp.2.2.2.2] at hw
      exact (EvLoopPc.poll.inj hw).symm
    | prepare v => rw [hp.2] at hw; split at hw <;> cases hw
    | call | poll => rw [hp.2] at hw; cases hw
    | event | done => rw [hp.2.2] at hw; cases hw

end

end Mnthr

import Mnthr.L6Loop.Refinement

/-!
# A wait that nothing ends

An `EV_DELETE` stays in the change list until the next call of `kevent`, and a
list with changes makes `mnthr_loop` call it. `stalled_hangs`: when nothing is
registered any more and nothing sleeps, this call has no timeout and no event to
wait for, and only a signal ends it. This is so once the last thread that waited
for a descriptor has been resumed and nothing else has been left to run.
-/
namespace Mnthr
open Kqueue KevSt

/-- Every pending deletion is of a registration. -/
def KevSt.Founded (k : KevSt) : Prop := (applyChanges k.kevents0 [] k.kq).2 = []

section
variable {D : KevBuild} {k k' : KevSt} {ke : KevEvent}

theorem founded_step (hF : k.Founded) (hA : Accounted k ke) (hB : ClosesIdle k ke)
    (hs : kevStep D k ke = some k') : k'.Founded := by
  have hq := kevStep_queue hs
  obtain ⟨h0, h1⟩ : k'.kevents0 = (k.queueAfter ke).kevents0 ∧ k'.kq = (k.queueAfter ke).kq :=
    ⟨congrArg KevQueue.kevents0 hq, congrArg KevQueue.kq hq⟩
  unfold Founded at hF ⊢
  rw [h0, h1]
  have discards : ∀ {t : Ptr} {ps : List KevPair}, ps.Nodup → (∀ p ∈ ps, k.Registered p) →
      (applyChanges (k.kevents0 ++ ps.map (⟨·, false, t⟩)) [] k.kq).2 = [] := fun hps hr => by
    rw [failed_append, hF, List.nil_append]
    exact failed_deletes hps hr
  cases ke with
  | wait w =>
    rw [queueAfter]
    cases k.me with
    | none => exact hF
    | some t =>
      show (applyChanges (k.kevents0 ++ w.pairs.map (⟨·, true, t⟩)) [] k.kq).2 = []
      rw [failed_append, hF, failed_adds, List.append_nil]
  | interrupt t =>
    rw [queueAfter]
    split
    · exact discards (clears_nodup _) (hA ‹_›)
    · exact hF
  | close fd =>
    have hkq : k.kq.filter (fun x => decide (x.1.ident ≠ fd)) = k.kq :=
      List.filter_eq_self.2 fun x hx => decide_eq_true (hB x hx)
    rw [queueAfter, hkq]
    exact hF
  | kevent | keventError => rfl
  | entry =>
    obtain ⟨i, kev, rest, hb⟩ := entry_batch hs
    rw [queueAfter, hb]
    dsimp only
    split
    · exact hF
    · rename_i he
      exact discards (List.nodup_singleton _) fun p hp => by
        rw [List.mem_singleton.1 hp]
        exact hA (i, kev) (by rw [hb]; rfl) (by simpa using he)
  | _ => exact hF

/-! ## The size of the result array -/

theorem pollerResume_max {t : Ptr} (h : k.pollerResume D t = some k') :
    k'.eventMax = k.eventMax := by
  unfold pollerResume at h
  dsimp only at h
  split at h
  · split at h
    · cases h; rfl
    · obtain ⟨x, r, rfl, -⟩ := waitEnd_spec h; rfl
  · cases h; rfl

theorem setResume_max (k : KevSt) (t : Ptr) : (k.setResume t).eventMax = k.eventMax := by
  unfold setResume
  split <;> rfl

theorem deliver_max {i : Nat} {kev : Kevent} {rc : Int} (h : k.deliver D i kev rc = some k') :
    k'.eventMax = k.eventMax := by
  unfold deliver at h
  dsimp only at h
  split at h
  · obtain ⟨bit, -, h⟩ := Option.bind_eq_some_iff.1 h
    unfold setResumeFast at h
    split at h
    · split at h
      · cases h
      · cases h; exact setResume_max _ _
    · cases h; rfl
  · split at h
    · exact (pollerResume_max h).trans rfl
    · cases h; rfl

/-- `event_max` changes when `kevent` is called. -/
theorem kevStep_max (hs : kevStep D k ke = some k') (h1 : ∀ refused fired, ke ≠ .kevent refused fired)
    (h2 : ∀ n refused, ke ≠ .keventError n refused) : k'.eventMax = k.eventMax := by
  cases ke with
  | kevent refused fired => exact absurd rfl (h1 refused fired)
  | keventError n refused => exact absurd rfl (h2 n refused)
  | entry =>
    simp only [kevStep] at hs
    split at hs
    · unfold entry at hs
      split at hs
      · cases hs
      · dsimp only at hs
        split at hs
        · cases hs
        · split at hs <;> exact (deliver_max hs).trans rfl
    · cases hs
  | resume t =>
    simp only [kevStep] at hs
    split at hs
    · exact (pollerResume_max hs).trans rfl
    · cases hs
  | spawn | setRc =>
    simp only [kevStep] at hs
    split at hs <;> cases hs
    rfl
  | block st d =>
    obtain ⟨t, -, hs⟩ := Option.bind_eq_some_iff.1 hs
    split at hs <;> cases hs
    rfl
  | close fd => cases hs; rfl
  | exit => obtain ⟨t, -, rfl⟩ := Option.map_eq_some_iff.1 hs; rfl
  | wait w =>
    obtain ⟨t, -, rfl⟩ := Option.map_eq_some_iff.1 hs
    exact addEvents_max w.pairs k t
  | wake t => obtain ⟨-, rfl⟩ := wake_cases hs; exact setResume_max k t
  | interrupt t =>
    obtain ⟨-, rfl⟩ := interrupt_cases hs
    unfold setInterrupt
    split
    · have hsh := congrArg KevSt.eventMax (clearEvent_shared k t)
      exact hsh
    · rfl

/-- The array has room for an event of every registration. -/
theorem room_step (hC : CountExact k') (h : (k.kq.length : Int) ≤ k.eventMax)
    (hs : kevStep D k ke = some k') : (k'.kq.length : Int) ≤ k'.eventMax := by
  have hq := kevStep_queue hs
  have hkq : k'.kq = (k.queueAfter ke).kq := congrArg KevQueue.kq hq
  -- at `kevent`, `event_count` is the number of registrations
  have called : k'.eventMax = k.capacity → k'.kevents0 = [] → k'.eventCount = k.eventCount →
      (k'.kq.length : Int) ≤ k'.eventMax := fun hm h0 hc => by
    have hreg : k'.regAfter = k'.kq := by rw [regAfter, h0]; rfl
    rw [CountExact, hreg, hc] at hC
    rw [hm, ← hC]
    exact Int.le_max_right _ _
  have stays : k'.eventMax = k.eventMax → k'.kq.Sublist k.kq →
      (k'.kq.length : Int) ≤ k'.eventMax := fun hm hsub => by
    have := hsub.length_le
    omega
  cases ke with
  | kevent refused fired =>
    simp only [kevStep] at hs
    split at hs
    · exact called (kevent_kept hs).2.1 (congrArg KevQueue.kevents0 hq)
        (congrArg KevQueue.eventCount hq)
    · cases hs
  | keventError n refused =>
    simp only [kevStep] at hs
    split at hs
    · exact called (keventError_kept hs).2.1 (congrArg KevQueue.kevents0 hq)
        (congrArg KevQueue.eventCount hq)
    · cases hs
  | close fd =>
    exact stays (kevStep_max hs (by simp) (by simp)) (hkq ▸ List.filter_sublist)
  | wait w =>
    refine stays (kevStep_max hs (by simp) (by simp)) ?_
    rw [hkq, queueAfter]
    cases k.me <;> exact .refl _
  | interrupt t =>
    refine stays (kevStep_max hs (by simp) (by simp)) ?_
    rw [hkq, queueAfter]
    split <;> exact .refl _
  | entry =>
    obtain ⟨i, kev, rest, hb⟩ := entry_batch hs
    refine stays (kevStep_max hs (by simp) (by simp)) ?_
    rw [hkq, queueAfter, hb]
    dsimp only
    split <;> exact .refl _
  | _ => exact stays (kevStep_max hs (by simp) (by simp)) (hkq ▸ .refl _)

end

/-! ## The loop -/

/-- At the wait, with nothing that sleeps and nothing registered or to be
registered, but deletions to pass on. -/
structure Loop.Stalled (l : Loop) : Prop where
  wait : l.pc = .wait none
  unregistered : l.eventCount = 0
  deletes : ∀ c ∈ l.kevents0, c.add = false
  pending : l.kevents0 ≠ []

section
variable {D : KevBuild} {objs : Objs} {now : Nat} {es : List LoopEvent} {e : LoopEvent}
  {l l' : Loop}

theorem founded_run (hr : exec (Loop.step D) (.init objs now) es = some l)
    (hc : Along (Loop.step D) (Loop.Seemly D Loop.Tidy) (.init objs now) es)
    (hw : l.waitOf = none) :
    l.kev.Founded ∧ CountExact l.kev ∧ (l.kq.length : Int) ≤ l.eventMax := by
  obtain ⟨k, ⟨kes, hk, hC⟩, hR⟩ := refines_run Loop.shared_tidy hc hr
  obtain ⟨hF, -, hcount, hroom⟩ := exec_inv
    (I := fun k => k.Founded ∧ (k.kq.map Prod.fst).Nodup ∧ CountExact k ∧
      (k.kq.length : Int) ≤ k.eventMax)
    (fun k ke k' hI hc hs => by
      have hcount := (count_step hI.2.1 hc.2.2 hI.2.2.1 hs).2 hc.2.1
      exact ⟨founded_step hI.1 hc.2.1 hc.2.2 hs, keys_step hI.2.1 hs, hcount,
        room_step hcount hI.2.2.2 hs⟩)
    (s := .init) ⟨rfl, List.nodup_nil, rfl, Int.le_refl 0⟩ hC hk
  have hseen := hR.views.seen hw
  obtain ⟨h0, h1, -, h2, hreg⟩ := hseen.shared_eq
  have hmax : k.eventMax = l.eventMax := congrArg KevSt.eventMax hseen.shared
  rw [Founded, h0, h1] at hF
  rw [CountExact, h2, hreg] at hcount
  rw [h1, hmax] at hroom
  exact ⟨hF, hcount, hroom⟩

/-- What the pending deletions lead to, however many of them are applied. -/
theorem Loop.Stalled.applied (h : l.Stalled) (hF : l.kev.Founded) (hC : CountExact l.kev) :
    (∀ b, applyChanges l.kevents0 b l.kq = ([], [])) ∧
      ∀ n b, (applyChanges (l.kevents0.take n) b l.kq).2 = [] := by
  have hreg : l.kev.regAfter = [] := by
    have h0 : (l.kev.regAfter.length : Int) = 0 := hC.symm.trans h.unregistered
    exact List.length_eq_zero_iff.1 (by omega)
  refine ⟨fun b => ?_, fun n b => ?_⟩
  · rw [apply_deletes h.deletes]
    exact Prod.ext hreg hF
  · have ht : ∀ c ∈ l.kevents0.take n, c.add = false := fun c hc =>
      h.deletes c (List.mem_of_mem_take hc)
    have hF' : (applyChanges (l.kevents0.take n ++ l.kevents0.drop n) [] l.kq).2 = [] := by
      rw [List.take_append_drop]
      exact hF
    rw [failed_append] at hF'
    rw [apply_deletes ht]
    exact (List.append_eq_nil_iff.1 hF').1

/-- Such a call of `kevent` can only be interrupted. -/
theorem Loop.Stalled.answer {a : KevAnswer} (h : l.Stalled) (hF : l.kev.Founded)
    (hC : CountExact l.kev) (hroom : (l.kq.length : Int) ≤ l.eventMax) (ha : l.answers none a)
    (hk : l.kevent none a = some l') :
    ∃ refused, a = .failed true refused ∧ l'.pc = .top ∧ l'.kevents0 = [] := by
  obtain ⟨hall, htake⟩ := h.applied hF hC
  have hcap : 0 < l.kev.capacity := by
    -- what is to be deleted is registered
    have hkq : l.kq ≠ [] := fun hkq => by
      obtain ⟨c, cs, hcs⟩ := List.exists_cons_of_ne_nil h.pending
      have hfail : c.fails false l.kq := by
        simp [Change.fails, h.deletes c (by rw [hcs]; exact List.mem_cons_self ..), hkq]
      have : (applyChanges l.kevents0 [] l.kq).2 = [] := hF
      rw [hcs, apply_cons, List.headD_nil, if_pos hfail] at this
      cases this
    have hlen := List.length_pos_of_ne_nil hkq
    have hmax : l.eventMax ≤ l.kev.capacity := Int.le_max_left _ _
    omega
  cases a with
  | entries refused fired =>
    obtain ⟨k, hk, -⟩ := Option.map_eq_some_iff.1 hk
    unfold KevSt.kevent at hk
    simp only at hk
    split at hk
    · rename_i hg
      have hfired : fired = [] := by
        refine List.eq_nil_iff_forall_not_mem.2 fun f hf => ?_
        have := hg.2.2.2 f hf
        rw [show l.kev.kevents0 = l.kevents0 from rfl, show l.kev.kq = l.kq from rfl, hall] at this
        cases this
      have hres : l.kev.results refused fired = [] := by
        rw [hfired, KevSt.results, show l.kev.kevents0 = l.kevents0 from rfl,
          show l.kev.kq = l.kq from rfl, hall]
        rfl
      rcases ha with ha | ha
      · exact absurd hres ha
      · omega
    · cases hk
  | failed eintr refused =>
    cases eintr with
    | true => cases hk; exact ⟨refused, rfl, by simp, rfl⟩
    | false =>
      obtain ⟨t, ht, -⟩ := ha.2 rfl
      cases ht
  | full n refused =>
    obtain ⟨k, hk, -⟩ := Option.map_eq_some_iff.1 hk
    unfold KevSt.keventError at hk
    simp only at hk
    split at hk
    · rename_i hg
      have := hg.1
      rw [show l.kev.kevents0 = l.kevents0 from rfl, show l.kev.kq = l.kq from rfl, htake] at this
      simp at this
      omega
    · cases hk

/-- The only thread reads from descriptor 5, and ends. -/
def oneReadsAndEnds : List LoopEvent :=
  [.thread (.call (.spawn 0)), .call, .test 10, .thread .next, .wait ⟨.waitForRead, 5⟩ false,
    .timeout, .kevent 11 (.entries [] [(⟨5, EVFILT_READ⟩, 0, ⟨0, 3⟩)]), .entry,
    .thread (.cont false), .thread (.exit false), .done, .test 12, .timeout]

end
end Mnthr

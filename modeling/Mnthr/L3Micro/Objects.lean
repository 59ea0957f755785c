import Mnthr.L3Micro.Yields
import Mnthr.L2Sched.Grants

/-!
# What an event does to semaphores, locks and signals

`step_effect`: an event grants something, takes something back, changes a count
or an owner, finalizes an object, or leaves all objects alone; the tests and
assertions of the source are facts about the state before it. An event that
stores no return code (`St.stores`) leaves every `co.rc` or sets it to 0.
-/
namespace Mnthr
open St

namespace Objs

/-- `g` is handed out. -/
def grant (o : Objs) : Grant → Objs
  | .sema i => o.setSemaI i (o.semaI i - 1)
  | .read i => o.setNreaders i ((o.nreaders i + 1) % 2 ^ 32)
  | .write i => o.setFwriter i true

/-- `g` is given back. -/
def give (o : Objs) : Grant → Objs
  | .sema i => o.setSemaI i (o.semaI i + 1)
  | .read i => o.setNreaders i ((o.nreaders i + (2 ^ 32 - 1)) % 2 ^ 32)
  | .write i => o.setFwriter i false

/-- What the acquire functions test before they hand out `g`. -/
def free (o : Objs) : Grant → Prop
  | .sema i => 0 < o.semaI i
  | .read i => o.fwriter i = false
  | .write i => o.fwriter i = false ∧ o.nreaders i = 0

/-- What the acquire functions test before they wait for `g`. -/
def busy (o : Objs) : Grant → Prop
  | .sema i => o.semaI i = 0
  | .read i => o.fwriter i = true
  | .write i => o.fwriter i = true ∨ 0 < o.nreaders i

/-- What the release functions assert. -/
def givable (o : Objs) : Grant → Prop
  | .sema i => 0 ≤ o.semaI i ∧ o.semaI i < o.semaN i
  | .read i => o.fwriter i = false
  | .write i => o.fwriter i = true ∧ o.nreaders i = 0

end Objs

/-- The event may store a return code other than 0 in a context. -/
def St.stores (s : St) : Event → Bool
  | .call (.setInterrupt _) | .call (.setRetval _) | .call (.signalError ..) | .call (.pollFail _)
  | .block (.setInterruptAndJoin _) _ | .block (.setInterruptAndJoinWithTimeout ..) _
  | .block (.signalErrorAndJoin ..) _ | .pollResume _ (some _) => true
  | .cont _ =>
    match s.pc.call with
    | some (.waitFor ..) | some (.interruptJoinTimeout ..) => true
    | _ => false
  | _ => false

inductive ObjsStep (s : St) (e : Event) (s' : St) : Prop where
  | same (hg : s.granted e s' = none) (hv : e.gives = none) (ho : s'.objs = s.objs)
  | grant {g : Grant} (hg : s.granted e s' = some g) (hv : e.gives = none) (hf : s.objs.free g)
      (ho : s'.objs = s.objs.grant g)
  | give {g : Grant} (hg : s.granted e s' = none) (hv : e.gives = some g)
      (ha : s.objs.givable g) (ho : s'.objs = s.objs.give g)
  | owner {g : Nat} {o : Option Ptr} (hg : s.granted e s' = none) (hv : e.gives = none)
      (ho : s'.objs = s.objs.setOwner g o)
  | isemaAcquire {i : Nat} (he : e = .call (.isemaAcquire i))
      (ha : 0 ≤ s.objs.isemaI i ∧ s.objs.isemaI i ≤ s.objs.isemaN i)
      (ho : s'.objs = s.objs.setIsemaI i (s.objs.isemaI i + 1))
  | isemaRelease {i : Nat} (he : e = .call (.isemaRelease i))
      (ho : s'.objs = s.objs.setIsemaI i (s.objs.isemaI i - 1))
  | semaFini {i : Nat} (he : e = .call (.semaFini i)) (ho : s'.objs = s.objs.semaFini i)
  | isemaFini {i : Nat} (he : e = .call (.isemaFini i)) (ho : s'.objs = s.objs.isemaFini i)
  | rwlockFini {i : Nat} (he : e = .call (.rwlockFini i)) (ho : s'.objs = s.objs.rwlockFini i)

structure StepEffect (s : St) (e : Event) (s' : St) : Prop where
  objs : ObjsStep s e s'
  rc : s.stores e = false → ∀ c, (s'.ctx c).rc = (s.ctx c).rc ∨ (s'.ctx c).rc = 0

/-- No object changes, and no context gets a return code other than 0. -/
structure Inert (s s' : St) : Prop where
  objs : s'.objs = s.objs
  rc : ∀ c, (s'.ctx c).rc = (s.ctx c).rc ∨ (s'.ctx c).rc = 0

namespace Inert
variable {s s1 s' : St} {c : Ptr} {q : Waitq}

theorem refl (s : St) : Inert s s := ⟨rfl, fun _ => .inl rfl⟩

theorem trans (h : Inert s s1) (h' : Inert s1 s') : Inert s s' := by
  refine ⟨h'.objs.trans h.objs, fun c => ?_⟩
  rcases h'.rc c with hc | hc
  · rw [hc]; exact h.rc c
  · exact .inr hc

/-- Everything but objects and contexts may change. -/
theorem of_eq (ho : s'.objs = s.objs) (hc : s'.ctx = s.ctx) : Inert s s' :=
  ⟨ho, fun c => .inl (by rw [hc])⟩

/-- One context changes too, and its return code at most to 0. -/
theorem of_update {x : Ctx} (ho : s'.objs = s.objs) (hc : s'.ctx = Function.update s.ctx c x)
    (hx : x.rc = (s.ctx c).rc ∨ x.rc = 0) : Inert s s' := by
  refine ⟨ho, fun d => ?_⟩
  rw [hc]
  by_cases hd : d = c
  · subst hd; simpa using hx
  · simp [hd]

theorem setCtx {x : Ctx} (h : x.rc = (s.ctx c).rc ∨ x.rc = 0) : Inert s (s.setCtx c x) :=
  of_update rfl rfl h

theorem queueNow {x : Ctx} (h : x.rc = (s.ctx c).rc) : Inert s (s.queueNow c x) :=
  of_update rfl rfl (.inl h)

/-! ## Library functions -/

theorem setResume (h : s.setResume c = some s') : Inert s s' := by
  unfold St.setResume at h
  split at h
  · cases h
  · split at h
    · cases h; exact refl s
    · cases h; exact queueNow rfl

theorem setResumeFast (h : s.setResumeFast c = some s') : Inert s s' := by
  unfold St.setResumeFast at h
  split at h
  · cases h
  · split at h
    · cases h; exact refl s
    · split at h
      · cases h
      · cases h
        exact of_update rfl rfl (.inl rfl)

theorem woken (q : Waitq) (t : Ptr) (rest : List Ptr) : Inert s (s.woken q t rest) := by
  unfold St.woken
  split
  · exact of_eq rfl rfl
  · exact (of_eq rfl rfl : Inert s (s.dequeue q t rest)).trans (queueNow rfl)

theorem resumeWaitqOne (h : s.resumeWaitqOne q = some s') : Inert s s' := by
  rcases resumeWaitqOne_cases h with ⟨-, rfl⟩ | ⟨t, rest, -, -, rfl⟩
  · exact refl _
  · exact woken q t rest

theorem resumeWaitqN {n : Nat} (h : St.resumeWaitqN n s q = some s') : Inert s s' := by
  induction n generalizing s with
  | zero => cases h; exact refl _
  | succ n ih =>
    obtain ⟨s1, h1, h2⟩ := Option.bind_eq_some_iff.1 h
    exact (resumeWaitqOne h1).trans (ih h2)

theorem condFini (h : s.condFini q = some s') : Inert s s' := by
  obtain ⟨s1, h1, rfl⟩ := Option.map_eq_some_iff.1 h
  exact (resumeWaitqN h1).trans (of_eq rfl rfl)

theorem finalize (h : s.finalize c = some s') : Inert s s' := by
  obtain ⟨s1, h1, rfl⟩ := Option.map_eq_some_iff.1 h
  refine trans ?_ ((resumeWaitqN h1).trans (of_eq rfl rfl))
  exact of_update rfl rfl (.inl rfl)

theorem pushFree (h : s.pushFree c = some s') : Inert s s' := by
  obtain ⟨s1, h1, rfl⟩ := Option.map_eq_some_iff.1 h
  exact (finalize h1).trans (of_eq rfl rfl)

theorem ctxFini (h : s.ctxFini c = some s') : Inert s s' := by
  unfold St.ctxFini at h
  split at h
  · cases h
  · obtain ⟨s1, h1, rfl⟩ := Option.map_eq_some_iff.1 h
    exact (finalize h1).trans (of_update rfl rfl (.inr rfl))

theorem ctxFiniAll {cs : List Ptr} (h : St.ctxFiniAll cs s = some s') : Inert s s' := by
  induction cs generalizing s with
  | nil => cases h; exact refl _
  | cons c cs ih =>
    obtain ⟨s1, h1, h2⟩ := Option.bind_eq_some_iff.1 h
    exact (ctxFini h1).trans (ih h2)

theorem gc (h : s.gc = some s') : Inert s s' := by
  unfold St.gc at h
  split at h
  · obtain ⟨s1, h1, rfl⟩ := Option.map_eq_some_iff.1 h
    exact (ctxFiniAll h1).trans (of_eq rfl rfl)
  · cases h

theorem create {D : Diag} (h : Micro D (.create c) s s') : Inert s s' := by
  cases h with
  | createFree | createNew => exact of_update rfl rfl (.inr rfl)

theorem run (h : s.run c = some s') : Inert s s' := by
  unfold St.run at h
  split at h
  · cases h
  · exact setResume h

theorem signalSend {g : Nat} (h : s.signalSend g = some s') : Inert s s' := by
  unfold St.signalSend at h
  split at h
  · cases h; exact refl s
  · split at h
    · cases h
    · split at h
      · exact setResume h
      · cases h; exact refl s

/-! ## Switching -/

theorem swapBack {b : Bool} (h : s.swapBack c b = some s') : Inert s s' := by
  unfold St.swapBack at h
  simp only at h
  split at h
  · cases h; exact of_eq rfl rfl
  · split at h
    · cases h
    · split at h
      · cases h; exact of_eq rfl rfl
      · split at h
        · exact (of_eq rfl rfl : Inert s (St.sleepqRemove { s with me := none, pc := .sched } c)).trans
            (pushFree h)
        · cases h

theorem setState {st : CoState} (h : s.setState st = some s') : Inert s s' := by
  obtain ⟨c, -, rfl⟩ := Option.map_eq_some_iff.1 h
  exact of_update rfl rfl (.inl rfl)

theorem yieldAs {k : Call} {b : Bool} (h : s.yieldAs k b = some s') : Inert s s' := by
  obtain ⟨c, -, h⟩ := Option.bind_eq_some_iff.1 h
  refine trans ?_ (swapBack h)
  exact of_update rfl rfl (.inl rfl)

theorem sleepUntil {d : Nat} {k : Call} {b : Bool} (h : s.sleepUntil d k b = some s') :
    Inert s s' := by
  obtain ⟨c, -, h⟩ := Option.bind_eq_some_iff.1 h
  refine trans ?_ (yieldAs h)
  exact of_update rfl rfl (.inl rfl)

theorem appendMe (h : s.appendMe q = some s') : Inert s s' := by
  obtain ⟨c, -, rfl⟩ := Option.map_eq_some_iff.1 h
  exact of_eq rfl rfl

theorem removeMe (h : s.removeMe q = some s') : Inert s s' := by
  obtain ⟨c, -, rfl⟩ := Option.map_eq_some_iff.1 h
  exact of_eq rfl rfl

theorem joinWaitq {k : Call} {b : Bool} (h : s.joinWaitq q k b = some s') : Inert s s' := by
  obtain ⟨s1, h1, h2⟩ := Option.bind_eq_some_iff.1 h
  exact (appendMe h1).trans (yieldAs h2)

theorem condWait {k : Call} {b : Bool} (h : s.condWait q k b = some s') : Inert s s' := by
  obtain ⟨s1, h1, h2⟩ := Option.bind_eq_some_iff.1 h
  exact (setState h1).trans (joinWaitq h2)

theorem complete {v : Int} (h : s.complete v = some s') : Inert s s' := by
  obtain ⟨c, -, rfl⟩ := Option.map_eq_some_iff.1 h
  exact of_eq rfl rfl

theorem sleepCall {d : Nat} {b : Bool} (h : s.sleepCall d b = some s') : Inert s s' := by
  obtain ⟨s1, h1, h2⟩ := Option.bind_eq_some_iff.1 h
  exact (setState h1).trans (sleepUntil h2)

/-! ## The scheduler -/

theorem enter (h : s.enter c = some s') : Inert s s' := by
  rcases enter_cases h with ⟨-, rfl⟩ | ⟨-, -, rfl⟩
  all_goals exact of_update rfl rfl (.inl rfl)

theorem pollerResume (h : s.pollerResume c = some s') : Inert s s' := by
  unfold St.pollerResume at h
  split at h
  · exact enter h
  · exact (of_eq rfl rfl : Inert s (s.sleepqRemove c)).trans (pushFree h)

theorem next (h : s.next = some s') : Inert s s' := by
  unfold St.next at h
  split at h
  · cases h
  · split at h
    · split at h
      · refine trans ?_ (pollerResume h)
        exact of_update rfl rfl (.inl rfl)
      · cases h
    · split at h
      · refine trans ?_ (pollerResume h)
        exact of_update rfl rfl (.inl rfl)
      · cases h
    · cases h

theorem sift (h : s.sift = some s') : Inert s s' := by
  obtain ⟨-, -, -, rfl⟩ := sift_cases h
  exact of_eq rfl rfl

end Inert

/-! ## Events -/

section
variable {D : Diag} {s s' : St} {e : Event} {c : Ptr} {q : Waitq} {g : Grant}

theorem granted_of_asks (h : s.asks e = none) : s.granted e s' = none := by
  simp [granted, h]

theorem asks_of_granted (h : s.granted e s' = some g) : s.asks e = some g := by
  unfold granted at h
  split at h
  · exact h
  · cases h

theorem gives_of_asks (h : s.asks e = some g) : e.gives = none := by
  cases e with
  | call op => cases op <;> first | rfl | cases h
  | _ => rfl

theorem granted_of_val {v : Int} (hr : s'.ret.map Ret.val = some v) (hv : v ≠ 0) :
    s.granted e s' = none := by
  simp [granted, hr, hv]

theorem granted_of_returned (h : e.returned s' = false) : s.granted e s' = none := by
  simp [granted, h]

theorem StepEffect.inert (ha : s.asks e = none) (hv : e.gives = none) (h : Inert s s') :
    StepEffect s e s' :=
  ⟨.same (granted_of_asks ha) hv h.objs, fun _ => h.rc⟩

/-- The event stores a return code, and leaves the objects alone. -/
theorem StepEffect.stores (ha : s.asks e = none) (hv : e.gives = none) (hs : s.stores e = true)
    (ho : s'.objs = s.objs) : StepEffect s e s' :=
  ⟨.same (granted_of_asks ha) hv ho, fun h => absurd (hs.symm.trans h) (by simp)⟩

theorem StepEffect.owner {i : Nat} {o : Option Ptr} {s1 : St}
    (h1 : s1 = { s with objs := s.objs.setOwner i o }) (ha : s.asks e = none)
    (hv : e.gives = none) (h : Inert s1 s') : StepEffect s e s' := by
  subst h1
  exact ⟨.owner (granted_of_asks ha) hv h.objs, fun _ => h.rc⟩

theorem setInterrupt_objs (h : s.setInterrupt D c = some s') : s'.objs = s.objs := by
  unfold St.setInterrupt at h
  split at h
  · cases h
  · split at h <;> cases h <;> rfl

theorem condWait_eq {k : Call} {b : Bool} (hme : s.me = some c)
    (h : s.condWait q k b = some s') :
    s' = ((s.inLib c .condwait).appended q c).parked c k b := by
  simp only [St.condWait, setState_eq hme, Option.bind_some, joinWaitq] at h
  rw [appendMe_eq (show (s.inLib c .condwait).me = some c from hme), Option.bind_some] at h
  simp only [yieldAs, show ((s.inLib c .condwait).appended q c).me = some c from hme,
    Option.bind_some] at h
  refine parked_of_swapBack hme ?_ h
  simp [appended, inLib, setCtx, CoState.resumable]

/-- A pass of a wait loop: the caller waits, or gets what it asks for. -/
theorem StepEffect.loop {k : Call} {b : Bool} {P : Prop} [Decidable P] (hc : ∀ op, e ≠ .call op)
    (hme : s.me = some c) (ha : s.asks e = some g) (hv : e.gives = none)
    (hf : ¬ P → s.objs.free g)
    (h : (if P then s.condWait q k b else { s with objs := s.objs.grant g }.complete 0) = some s') :
    StepEffect s e s' := by
  have hr : e.returned s' = decide (s'.pc ≠ .sched) := by
    cases e with
    | call op => exact absurd rfl (hc op)
    | _ => rfl
  split at h
  · have hi := Inert.condWait h
    refine ⟨.same (granted_of_returned ?_) hv hi.objs, fun _ => hi.rc⟩
    rw [hr, condWait_eq hme h]
    simp [parked]
  · rename_i hp
    have hi := Inert.complete h
    obtain ⟨d, -, rfl⟩ := Option.map_eq_some_iff.1 h
    refine ⟨.grant ?_ hv (hf hp) rfl, fun _ => hi.rc⟩
    simp [granted, hr, ha]

theorem semaLoop_effect {i : Nat} {b : Bool} (hc : ∀ op, e ≠ .call op) (hme : s.me = some c)
    (ha : s.asks e = some (.sema i)) (hv : e.gives = none) (h : s.semaLoop i b = some s') :
    StepEffect s e s' := by
  unfold semaLoop at h
  by_cases h0 : s.objs.semaI i = 0
  · rw [if_pos h0] at h
    exact .loop (P := True) hc hme ha hv (fun hn => absurd trivial hn) (by simpa using h)
  · rw [if_neg h0] at h
    split at h
    · rename_i hp
      refine .loop (P := False) (q := .sema i) (k := .gone) (b := b) hc hme ha hv (fun _ => hp.1) ?_
      rw [if_neg not_false]
      exact h
    · cases h

theorem readLoop_effect {i : Nat} {b : Bool} (hc : ∀ op, e ≠ .call op) (hme : s.me = some c)
    (ha : s.asks e = some (.read i)) (hv : e.gives = none) (h : s.readLoop i b = some s') :
    StepEffect s e s' :=
  .loop hc hme ha hv (fun hn => by simpa [Objs.free] using hn) h

theorem writeLoop_effect {i : Nat} {b : Bool} (hc : ∀ op, e ≠ .call op) (hme : s.me = some c)
    (ha : s.asks e = some (.write i)) (hv : e.gives = none) (h : s.writeLoop i b = some s') :
    StepEffect s e s' :=
  .loop hc hme ha hv (fun hn => by simpa [Objs.free] using hn) h

theorem isemaLoop_inert {i : Nat} {b : Bool} (h : s.isemaLoop i b = some s') : Inert s s' := by
  unfold isemaLoop at h
  split at h
  · exact .condWait h
  · exact .complete h

theorem callOp_effect {op : Op} (h : s.callOp D op = some s') : StepEffect s (.call op) s' := by
  cases op with
  | new f =>
    obtain ⟨r, h1, rfl⟩ := Option.map_eq_some_iff.1 h
    exact .inert rfl rfl (.create (vnew_popFree (D := D) h1).2)
  | newSig f =>
    obtain ⟨r, h1, rfl⟩ := Option.map_eq_some_iff.1 h
    exact .inert rfl rfl (.create (vnew_ctxNew (D := D) h1).2)
  | spawn f =>
    obtain ⟨r, h1, h2⟩ := Option.bind_eq_some_iff.1 h
    exact .inert rfl rfl ((Inert.create (vnew_popFree (D := D) h1).2).trans (.run h2))
  | spawnSig f =>
    obtain ⟨r, h1, h2⟩ := Option.bind_eq_some_iff.1 h
    exact .inert rfl rfl ((Inert.create (vnew_ctxNew (D := D) h1).2).trans (.run h2))
  | run c =>
    simp only [callOp] at h
    split at h
    · exact .inert rfl rfl (.run h)
    · cases h
  | setInterrupt c =>
    simp only [callOp] at h
    split at h
    · exact .stores rfl rfl rfl (setInterrupt_objs h)
    · cases h
  | setPrio c b | incabac c | decabac c =>
    simp only [callOp] at h
    split at h
    · cases h; exact .inert rfl rfl (.setCtx (.inl rfl))
    · cases h
  | setRetval rv | pollFail b =>
    obtain ⟨c, -, rfl⟩ := Option.map_eq_some_iff.1 h
    exact .stores rfl rfl rfl rfl
  | signalInit i c =>
    simp only [callOp] at h
    split at h
    · cases h; exact .owner rfl rfl rfl (.refl _)
    · cases h
  | signalFini i => cases h; exact .owner rfl rfl rfl (.refl _)
  | signalSend i => exact .inert rfl rfl (.signalSend h)
  | signalError i v =>
    simp only [callOp, St.signalError] at h
    split at h
    · cases h; exact .stores rfl rfl rfl rfl
    · split at h
      · cases h
      · split at h
        · exact .stores rfl rfl rfl (Inert.setResume h).objs
        · cases h; exact .stores rfl rfl rfl rfl
  | condSignalOne i => exact .inert rfl rfl (.resumeWaitqOne h)
  | condSignalAll i => exact .inert rfl rfl (.resumeWaitqN h)
  | condFini i => exact .inert rfl rfl (.condFini h)
  | semaTryAcquire i =>
    simp only [callOp] at h
    split at h
    · rename_i h0
      cases h
      exact ⟨.grant rfl rfl h0 rfl, fun _ _ => .inl rfl⟩
    · cases h
      exact ⟨.same (granted_of_val rfl (D.ne_zero 129 5)) rfl rfl, fun _ _ => .inl rfl⟩
  | semaRelease i =>
    simp only [callOp, St.semaRelease] at h
    split at h
    · rename_i ha
      obtain ⟨s1, h1, rfl⟩ := Option.map_eq_some_iff.1 h
      have hi := Inert.resumeWaitqOne h1
      exact ⟨.give (granted_of_asks rfl) rfl ha (by rw [hi.objs]; rfl), fun _ => hi.rc⟩
    · cases h
  | semaFini i =>
    obtain ⟨s1, h1, rfl⟩ := Option.map_eq_some_iff.1 h
    have hi := Inert.condFini h1
    exact ⟨.semaFini rfl (by rw [hi.objs]), fun _ => hi.rc⟩
  | isemaAcquire i =>
    simp only [callOp, St.isemaAcquire] at h
    split at h
    · rename_i ha
      have hi := Inert.resumeWaitqOne h
      exact ⟨.isemaAcquire rfl ha hi.objs, fun _ => hi.rc⟩
    · cases h
  | isemaRelease i =>
    simp only [callOp, St.isemaRelease] at h
    split at h
    · cases h; exact ⟨.isemaRelease rfl rfl, fun _ _ => .inl rfl⟩
    · cases h
  | isemaFini i =>
    obtain ⟨s1, h1, rfl⟩ := Option.map_eq_some_iff.1 h
    have hi := Inert.condFini h1
    exact ⟨.isemaFini rfl (by rw [hi.objs]), fun _ => hi.rc⟩
  | rwlockTryAcquireRead i =>
    simp only [callOp] at h
    split at h
    · cases h
      exact ⟨.same (granted_of_val rfl (D.ne_zero 129 3)) rfl rfl, fun _ _ => .inl rfl⟩
    · rename_i h0
      cases h
      exact ⟨.grant rfl rfl (by simpa [Objs.free] using h0) rfl, fun _ _ => .inl rfl⟩
  | rwlockReleaseRead i =>
    simp only [callOp, St.rwlockReleaseRead] at h
    split at h
    · cases h
    · rename_i h0
      have ha : s.objs.givable (.read i) := by simpa [Objs.givable] using h0
      split at h
      · have hi := Inert.resumeWaitqOne h
        exact ⟨.give (granted_of_asks rfl) rfl ha hi.objs, fun _ => hi.rc⟩
      · cases h
        exact ⟨.give (granted_of_asks rfl) rfl ha rfl, fun _ _ => .inl rfl⟩
  | rwlockTryAcquireWrite i =>
    simp only [callOp] at h
    split at h
    · cases h
      exact ⟨.same (granted_of_val rfl (D.ne_zero 129 4)) rfl rfl, fun _ _ => .inl rfl⟩
    · rename_i h0
      cases h
      exact ⟨.grant rfl rfl (by simpa [Objs.free] using h0) rfl, fun _ _ => .inl rfl⟩
  | rwlockReleaseWrite i =>
    simp only [callOp, St.rwlockReleaseWrite] at h
    split at h
    · rename_i ha
      have hi := Inert.resumeWaitqN h
      exact ⟨.give (granted_of_asks rfl) rfl ha hi.objs, fun _ => hi.rc⟩
    · cases h
  | rwlockFini i =>
    obtain ⟨s1, h1, rfl⟩ := Option.map_eq_some_iff.1 h
    have hi := Inert.condFini h1
    exact ⟨.rwlockFini rfl (by rw [hi.objs]), fun _ => hi.rc⟩
  | gc => exact .inert rfl rfl (.gc h)

theorem block_effect {op : Blk} {b : Bool} (hpc : s.pc = .user c) (hme : s.me = some c)
    (h : s.block D b op = some s') : StepEffect s (.block op b) s' := by
  cases op with
  | sleep u v =>
    simp only [St.block] at h
    split at h
    · exact .inert rfl rfl (.sleepCall h)
    · cases h
  | yield | giveup => exact .inert rfl rfl (.sleepCall h)
  | join x =>
    simp only [St.block, St.join] at h
    split at h
    · split at h
      · obtain ⟨s1, h1, h2⟩ := Option.bind_eq_some_iff.1 h
        exact .inert rfl rfl ((Inert.setState h1).trans (.joinWaitq h2))
      · cases h; exact .inert rfl rfl (.of_eq rfl rfl)
    · cases h
  | setInterruptAndJoin x =>
    simp only [St.block, St.setInterruptAndJoin] at h
    split at h
    · split at h
      · obtain ⟨s1, h1, h⟩ := Option.bind_eq_some_iff.1 h
        obtain ⟨s2, h2, h3⟩ := Option.bind_eq_some_iff.1 h
        exact .stores rfl rfl rfl
          (((Inert.setState h2).trans (.joinWaitq h3)).objs.trans (setInterrupt_objs h1))
      · cases h; exact .stores rfl rfl rfl rfl
    · cases h
  | setInterruptAndJoinWithTimeout x v =>
    simp only [St.block, St.setInterruptAndJoinWithTimeout] at h
    split at h
    · split at h
      · obtain ⟨s1, h1, h⟩ := Option.bind_eq_some_iff.1 h
        obtain ⟨s2, h2, h⟩ := Option.bind_eq_some_iff.1 h
        obtain ⟨t, -, h⟩ := Option.bind_eq_some_iff.1 h
        obtain ⟨s4, h4, h5⟩ := Option.bind_eq_some_iff.1 h
        have h34 := ((Inert.appendMe h4).trans (.sleepUntil h5)).objs
        exact .stores rfl rfl rfl (h34.trans ((Inert.setState h2).objs.trans (setInterrupt_objs h1)))
      · cases h; exact .stores rfl rfl rfl rfl
    · cases h
  | signalSubscribe i =>
    obtain ⟨s1, h1, h2⟩ := Option.bind_eq_some_iff.1 h
    exact .owner rfl rfl rfl ((Inert.setState h1).trans (.yieldAs h2))
  | signalSubscribeWithTimeout i v =>
    simp only [St.block] at h
    split at h
    · obtain ⟨s1, h1, h2⟩ := Option.bind_eq_some_iff.1 h
      exact .owner rfl rfl rfl ((Inert.setState h1).trans (.sleepUntil h2))
    · cases h
  | signalErrorAndJoin i v =>
    simp only [St.block, St.signalErrorAndJoin] at h
    split at h
    · cases h; exact .stores rfl rfl rfl rfl
    · split at h
      · cases h
      · split at h
        · obtain ⟨s1, h1, h⟩ := Option.bind_eq_some_iff.1 h
          obtain ⟨s2, h2, h3⟩ := Option.bind_eq_some_iff.1 h
          exact .stores rfl rfl rfl
            (((Inert.setResume h1).trans ((Inert.setState h2).trans (.joinWaitq h3))).objs)
        · cases h; exact .stores rfl rfl rfl rfl
  | condWait i => exact .inert rfl rfl (.condWait h)
  | semaAcquire i =>
    simp only [St.block, St.semaAcquire] at h
    split at h
    · rename_i h0
      cases h
      refine ⟨.grant (g := .sema i) ?_ rfl h0 rfl, fun _ _ => .inl rfl⟩
      simp [granted, Event.returned, returns, asks, hpc]
    · exact semaLoop_effect (by simp) hme rfl rfl h
  | isemaWait i =>
    simp only [St.block, St.isemaWait] at h
    split at h
    · exact .inert rfl rfl (isemaLoop_inert h)
    · cases h
  | rwlockAcquireRead i => exact readLoop_effect (by simp) hme rfl rfl h
  | rwlockAcquireWrite i => exact writeLoop_effect (by simp) hme rfl rfl h
  | waitFor v f =>
    simp only [St.block, St.waitFor] at h
    split at h
    · obtain ⟨r, h1, h⟩ := Option.bind_eq_some_iff.1 h
      obtain ⟨s1, h2, h⟩ := Option.bind_eq_some_iff.1 h
      obtain ⟨s2, h3, h⟩ := Option.bind_eq_some_iff.1 h
      obtain ⟨s3, h4, h5⟩ := Option.bind_eq_some_iff.1 h
      have hcr := Inert.create (vnew_popFree (D := D) h1).2
      exact .inert rfl rfl (hcr.trans ((Inert.setState h2).trans ((Inert.appendMe h3).trans
        ((Inert.setResume h4).trans (.sleepUntil h5)))))
    · cases h
  | peek x v =>
    simp only [St.block, St.peek] at h
    split at h
    · obtain ⟨s1, h1, h⟩ := Option.bind_eq_some_iff.1 h
      obtain ⟨s2, h2, h3⟩ := Option.bind_eq_some_iff.1 h
      exact .inert rfl rfl ((Inert.setState h1).trans ((Inert.appendMe h2).trans (.sleepUntil h3)))
    · cases h
  | pollRead | pollWrite | pollOther =>
    obtain ⟨s1, h1, h2⟩ := Option.bind_eq_some_iff.1 h
    exact .inert rfl rfl ((Inert.setState h1).trans (.yieldAs h2))

theorem cont_effect {k : Call} {b : Bool} (hpc : s.pc = .post c k) (hme : s.me = some c)
    (h : s.cont D c k b = some s') : StepEffect s (.cont b) s' := by
  have ha : s.asks (.cont b) = k.wants := by simp [asks, hpc, Pc.call]
  -- a wait that failed returns its code
  have failed : ∀ {v : Int}, v ≠ 0 → s.complete v = some s' → StepEffect s (.cont b) s' := by
    intro v hv h
    have hi := Inert.complete h
    obtain ⟨d, -, rfl⟩ := Option.map_eq_some_iff.1 h
    exact ⟨.same (granted_of_val rfl hv) rfl hi.objs, fun _ => hi.rc⟩
  cases k with
  | start | gone => cases h
  | sleep _ | join _ | interruptJoin _ | errorJoin _ | condWait _ | poll _ =>
    exact .inert ha rfl (.complete h)
  | subscribe i | subscribeTimeout i => exact .owner rfl ha rfl (.complete h)
  | semaAcquire i =>
    simp only [cont] at h
    split at h
    · exact failed ‹_› h
    · exact semaLoop_effect (by simp) hme ha rfl h
  | isemaWait i =>
    simp only [cont] at h
    split at h
    · exact .inert ha rfl (.complete h)
    · exact .inert ha rfl (isemaLoop_inert h)
  | readLock i =>
    simp only [cont] at h
    split at h
    · exact failed ‹_› h
    · exact readLoop_effect (by simp) hme ha rfl h
  | writeLock i =>
    simp only [cont] at h
    split at h
    · exact failed ‹_› h
    · exact writeLoop_effect (by simp) hme ha rfl h
  | interruptJoinTimeout x n =>
    have hst : s.stores (.cont b) = true := by simp [stores, hpc, Pc.call]
    simp only [cont, interruptJoinTimeoutEnd] at h
    split at h
    · cases h
    · split at h
      · exact .stores ha rfl hst (Inert.complete h).objs
      · split at h
        · obtain ⟨s1, h1, h2⟩ := Option.bind_eq_some_iff.1 h
          exact .stores ha rfl hst ((Inert.complete h2).objs.trans (Inert.removeMe h1).objs)
        · cases h
  | waitFor x n =>
    have hst : s.stores (.cont b) = true := by simp [stores, hpc, Pc.call]
    simp only [cont, waitForEnd] at h
    split at h
    · cases h
    · split at h
      · exact .stores ha rfl hst (Inert.complete h).objs
      · split at h
        · obtain ⟨s1, h1, h⟩ := Option.bind_eq_some_iff.1 h
          obtain ⟨s2, h2, h3⟩ := Option.bind_eq_some_iff.1 h
          exact .stores ha rfl hst
            ((Inert.complete h3).objs.trans ((setInterrupt_objs h2).trans (Inert.removeMe h1).objs))
        · cases h
  | peek x n =>
    simp only [cont, peekEnd] at h
    split at h
    · cases h
    · split at h
      · exact .inert ha rfl ((Inert.of_eq rfl rfl : Inert s (s.sleepqRemove c)).trans (.complete h))
      · split at h
        · obtain ⟨s1, h1, h2⟩ := Option.bind_eq_some_iff.1 h
          exact .inert ha rfl ((Inert.removeMe h1).trans (.complete h2))
        · cases h

theorem step_effect (hB : Base s) (h : s.step D e = some s') : StepEffect s e s' := by
  cases e with
  | call op =>
    simp only [step] at h
    split at h
    · exact callOp_effect h
    · cases h
  | block op b =>
    simp only [step] at h
    split at h
    · rename_i c hpc
      split at h
      · exact block_effect hpc (hB.me c (by rw [hpc]; rfl)) h
      · cases h
    · cases h
  | cont b =>
    simp only [step] at h
    split at h
    · rename_i c k hpc
      split at h
      · exact cont_effect hpc (hB.me c (by rw [hpc]; rfl)) h
      · cases h
    · cases h
  | exit b =>
    simp only [step] at h
    split at h
    · split at h
      · exact .inert rfl rfl (.swapBack h)
      · cases h
    · cases h
  | sift => exact .inert rfl rfl (.sift h)
  | next => exact .inert rfl rfl (.next h)
  | tick v =>
    simp only [step] at h
    split at h
    · cases h; exact .inert rfl rfl (.of_eq rfl rfl)
    · cases h
  | pollResume x rc =>
    simp only [step, St.pollResume] at h
    split at h
    · split at h
      · cases h; exact .inert rfl rfl (.refl _)
      · cases rc with
        | none => exact .inert rfl rfl (.pollerResume h)
        | some v => exact .stores rfl rfl rfl (Inert.pollerResume h).objs
    · cases h
  | pollFast x =>
    simp only [step, St.pollFast] at h
    split at h
    · exact .inert rfl rfl (.setResumeFast h)
    · cases h

/-! ## Waiting -/

/-- `c` waits on `q` in the call `k`. -/
def St.waits (s : St) (q : Waitq) (c : Ptr) (k : Call) (b : Bool) : St :=
  ((s.inLib c .condwait).appended q c).parked c k b

/-- An acquire function has run until it waits or returns. -/
inductive Acquire (g : Grant) (k : Call) (c : Ptr) (s : St) (e : Event) (s' : St) : Prop where
  | wait {q : Waitq} {b : Bool} (hb : s.objs.busy g) (hq : k.queue = some q)
      (hs : s' = s.waits q c k b)
  | grant (hg : s.granted e s' = some g) (hw : s'.wq = s.wq)
  | fail (hrc : (s.ctx c).rc ≠ 0) (ho : s'.objs = s.objs) (hw : s'.wq = s.wq)

theorem Acquire.loop {k : Call} {b : Bool} {P : Prop} [Decidable P] (hc : ∀ op, e ≠ .call op)
    (hme : s.me = some c) (ha : s.asks e = some g) (hq : k.queue = some q)
    (hf : P → s.objs.busy g)
    (h : (if P then s.condWait q k b else { s with objs := s.objs.grant g }.complete 0) = some s') :
    Acquire g k c s e s' := by
  split at h
  · rename_i hp
    exact .wait (hf hp) hq (condWait_eq hme h)
  · obtain ⟨d, -, rfl⟩ := Option.map_eq_some_iff.1 h
    refine .grant ?_ rfl
    cases e with
    | call op => exact absurd rfl (hc op)
    | _ => simp [granted, Event.returned, ha]

theorem semaLoop_acquire {i : Nat} {b : Bool} (hc : ∀ op, e ≠ .call op) (hme : s.me = some c)
    (ha : s.asks e = some (.sema i)) (h : s.semaLoop i b = some s') :
    Acquire (.sema i) (.semaAcquire i) c s e s' := by
  unfold semaLoop at h
  by_cases h0 : s.objs.semaI i = 0
  · rw [if_pos h0] at h
    exact .loop (P := True) hc hme ha rfl (fun _ => h0) (by simpa using h)
  · rw [if_neg h0] at h
    split at h
    · refine .loop (P := False) (b := b) hc hme ha rfl False.elim ?_
      rw [if_neg not_false]
      exact h
    · cases h

theorem readLoop_acquire {i : Nat} {b : Bool} (hc : ∀ op, e ≠ .call op) (hme : s.me = some c)
    (ha : s.asks e = some (.read i)) (h : s.readLoop i b = some s') :
    Acquire (.read i) (.readLock i) c s e s' :=
  .loop (P := s.objs.fwriter i = true) hc hme ha rfl id h

theorem writeLoop_acquire {i : Nat} {b : Bool} (hc : ∀ op, e ≠ .call op) (hme : s.me = some c)
    (ha : s.asks e = some (.write i)) (h : s.writeLoop i b = some s') :
    Acquire (.write i) (.writeLock i) c s e s' :=
  .loop (P := s.objs.fwriter i = true ∨ 0 < s.objs.nreaders i) hc hme ha rfl id h

/-- What the rest of an acquire function does once its caller is switched back
to. -/
theorem cont_acquire {k : Call} {b : Bool} (hB : Base s) (hpc : s.pc = .post c k)
    (hw : k.wants = some g) (h : s.step D (.cont b) = some s') :
    Acquire g k c s (.cont b) s' := by
  have hme := hB.me c (by rw [hpc]; rfl)
  have ha : s.asks (.cont b) = some g := by simp [asks, hpc, Pc.call, hw]
  have failed : ∀ {v : Int}, (s.ctx c).rc ≠ 0 → s.complete v = some s' →
      Acquire g k c s (.cont b) s' := by
    intro v hv h
    obtain ⟨d, -, rfl⟩ := Option.map_eq_some_iff.1 h
    exact .fail hv rfl rfl
  simp only [step, hpc] at h
  split at h
  swap
  · cases h
  cases k with
  | semaAcquire i =>
    cases hw
    simp only [cont] at h
    split at h
    · exact failed ‹_› h
    · exact semaLoop_acquire (by simp) hme ha h
  | readLock i =>
    cases hw
    simp only [cont] at h
    split at h
    · exact failed ‹_› h
    · exact readLoop_acquire (by simp) hme ha h
  | writeLock i =>
    cases hw
    simp only [cont] at h
    split at h
    · exact failed ‹_› h
    · exact writeLoop_acquire (by simp) hme ha h
  | _ => cases hw

/-- What a call of an acquire function does. -/
theorem block_acquire {op : Blk} {b : Bool} (hB : Base s) (hpc : s.pc = .user c)
    (ha : s.asks (.block op b) = some g) (h : s.step D (.block op b) = some s') :
    ∃ k, k.wants = some g ∧ Acquire g k c s (.block op b) s' := by
  have hme := hB.me c (by rw [hpc]; rfl)
  simp only [step, hpc] at h
  split at h
  swap
  · cases h
  cases op with
  | semaAcquire i =>
    cases ha
    simp only [St.block, St.semaAcquire] at h
    split at h
    · cases h
      refine ⟨.semaAcquire i, rfl, .grant ?_ rfl⟩
      simp [granted, Event.returned, returns, asks, hpc]
    · exact ⟨.semaAcquire i, rfl, semaLoop_acquire (by simp) hme rfl h⟩
  | rwlockAcquireRead i =>
    cases ha
    exact ⟨.readLock i, rfl, readLoop_acquire (by simp) hme rfl h⟩
  | rwlockAcquireWrite i =>
    cases ha
    exact ⟨.writeLock i, rfl, writeLoop_acquire (by simp) hme rfl h⟩
  | _ => cases ha

end

end Mnthr

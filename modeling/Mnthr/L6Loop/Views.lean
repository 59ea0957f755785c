import Mnthr.L4Inv.Kevent
import Mnthr.L4Inv.Standing
import Mnthr.L6Loop.Polls

/-!
# The scheduler as the backend sees it

The model of the backend (`L2Sched.Kevent`) keeps of the scheduler what the
backend can tell of it. `Pictures` relates the two: who runs, who is alive, in
which state, with which key, in which wait, and that whoever is in the sleep
queue may be resumed. `pictures_micro` is the simulation: a micro-step of the
scheduler is a list of events of the backend that leave its queue alone.
-/
namespace Mnthr
open St

namespace KevSt

/-- What the backend keeps outside the threads. -/
def shared (k : KevSt) : KevSt := { k with thr := fun _ => .init, me := none }

theorem shared_iff {k k' : KevSt} : k.shared = k'.shared ↔ k.queue = k'.queue ∧
    k.kevents1 = k'.kevents1 ∧ k.eventMax = k'.eventMax ∧ k.ret = k'.ret := by
  simp only [shared, queue, KevSt.mk.injEq, KevQueue.mk.injEq, true_and]
  tauto

theorem clearEvent_shared (k : KevSt) (t : Ptr) : (k.clearEvent t).shared =
    { k.shared with
      kevents0 := (k.queue.discards t (k.thr t).clears).kevents0
      eventCount := (k.queue.discards t (k.thr t).clears).eventCount } := by
  have hq := (clearEvent_spec k t).2.2
  have hrest : (k.clearEvent t).kevents1 = k.kevents1 ∧ (k.clearEvent t).eventMax = k.eventMax ∧
      (k.clearEvent t).ret = k.ret := by
    unfold clearEvent
    dsimp only
    split
    · exact ⟨rfl, rfl, rfl⟩
    · split <;> exact ⟨rfl, rfl, rfl⟩
  rw [← hq]
  obtain ⟨h1, h2, h3⟩ := hrest
  have h4 : (k.clearEvent t).kq = k.kq := congrArg KevQueue.kq hq
  have h5 : (k.clearEvent t).batch = k.batch := congrArg KevQueue.batch hq
  simp [shared, queue, h1, h2, h3, h4, h5]

/-- Two states with the same queue and the same pairs to discard. -/
theorem clearEvent_congr {k k' : KevSt} {t : Ptr} (h : k.shared = k'.shared)
    (hc : (k.thr t).clears = (k'.thr t).clears) :
    (k.clearEvent t).shared = (k'.clearEvent t).shared := by
  have hq : k.queue = k'.queue := (shared_iff.1 h).1
  rw [clearEvent_shared, clearEvent_shared, h, hc, hq]

end KevSt

/-- The events that are about threads only, and start no wait. -/
def KevEvent.silent : KevEvent → Bool
  | .spawn _ | .resume _ | .block .. | .exit | .wake _ | .setRc .. => true
  | _ => false

/-- A thread that runs is resumed, also on its way to a yield. -/
def St.seen (s : St) (t : Ptr) : CoState :=
  if s.pc.runs = some t then .resumed else (s.ctx t).state

/-- `k` keeps of the threads what the scheduler does; `ws` are their waits.
`E` fails while the running thread has stored a key and is on its way to a
yield. -/
structure Pictures (E : Prop) (s : St) (ws : Ptr → Option KevWait) (k : KevSt) : Prop where
  me : k.me = s.pc.runs
  live : ∀ t, (k.thr t).live = true ↔ (s.ctx t).state ≠ .dormant
  state : ∀ t, (k.thr t).state = s.seen t
  wait : ∀ t, (k.thr t).wait = ws t
  ticks : ∀ t, (s.ctx t).state ≠ .dormant → E ∨ s.pc.runs ≠ some t →
    (k.thr t).expireTicks = (s.ctx t).expireTicks
  queued : ∀ t, s.filed t → (k.thr t).queued = true

/-- `t` is suspended in the wait `w`: nothing has happened to it, its events
were deferred, or it was interrupted. -/
def St.waitsIn (s : St) (t : Ptr) (w : KevWait) : Prop :=
  (s.ctx t).uc = .poll w.fn.state ∧
    ((s.ctx t).state = w.fn.state ∨ (s.ctx t).state = .setResume ∧ w.fn = .waitForEvents ∨
      (s.ctx t).state = .setInterrupt ∧ (s.ctx t).rc ≠ 0)

/-- `ws` has a wait for every thread that waits for a descriptor, and for no
other. -/
structure Waits (s : St) (ws : Ptr → Option KevWait) : Prop where
  sound : ∀ t w, ws t = some w → s.waitsIn t w
  complete : ∀ t, (s.ctx t).state.polling → ws t ≠ none

/-- `k'` is reached from `k` by silent events, which leave the waits alone. -/
structure Quietly (D : KevBuild) (ws : Ptr → Option KevWait) (k k' : KevSt) : Prop where
  run : ∃ kes : List KevEvent, (∀ ke ∈ kes, ke.silent) ∧ exec (kevStep D) k kes = some k'
  shared : k'.shared = k.shared
  thr : ∀ t, ws t ≠ none → (k'.thr t).rc = (k.thr t).rc ∧ (k'.thr t).ident = (k.thr t).ident ∧
    (k'.thr t).filter = (k.thr t).filter

/-- The micro-steps without a wait for a descriptor, and without an interrupt. -/
def Act.plain (E : Prop) : Act → Prop
  | .enterLib _ st => st.polling = false
  | .expire .. => ¬ E
  | .yield _ k b => E ∧ b = false ∧ k.coState.elsewhere
  | .sleepYield _ _ k b _ => b = false ∧ k.coState.elsewhere
  | .interrupt _ | .resumeFast _ | .enter .. | .discard .. | .quit _ => False
  | _ => True

section
variable {D : KevBuild} {E : Prop} {a : Act} {s s' : St} {ws : Ptr → Option KevWait}
  {k k' k1 : KevSt} {c t : Ptr} {w : KevWait}

theorem Quietly.refl (k : KevSt) : Quietly D ws k k :=
  ⟨⟨[], by simp, rfl⟩, rfl, fun _ _ => ⟨rfl, rfl, rfl⟩⟩

theorem Quietly.trans (h : Quietly D ws k k1) (h' : Quietly D ws k1 k') : Quietly D ws k k' := by
  obtain ⟨es, h1, h2⟩ := h.run
  obtain ⟨es', h3, h4⟩ := h'.run
  refine ⟨⟨es ++ es', fun ke hke => ?_, exec_trans h2 h4⟩, h'.shared.trans h.shared, fun t ht => ?_⟩
  · exact (List.mem_append.1 hke).elim (h1 ke) (h3 ke)
  · obtain ⟨h5, h6, h7⟩ := h.thr t ht
    obtain ⟨h8, h9, h10⟩ := h'.thr t ht
    exact ⟨h8.trans h5, h9.trans h6, h10.trans h7⟩

theorem Quietly.one {e : KevEvent} (he : e.silent) (h : kevStep D k e = some k')
    (hsh : k'.shared = k.shared) (ht : ∀ t, ws t ≠ none → (k'.thr t).rc = (k.thr t).rc ∧
      (k'.thr t).ident = (k.thr t).ident ∧ (k'.thr t).filter = (k.thr t).filter) :
    Quietly D ws k k' :=
  ⟨⟨[e], by simpa using he, by simp only [exec, h, Option.bind_some]⟩, hsh, ht⟩

/-! ## Waits -/

theorem waitsIn_state (h : s.waitsIn t w) : (s.ctx t).state.resumable := by
  rcases h.2 with h | ⟨h, -⟩ | ⟨h, -⟩ <;> rw [h]
  · cases w.fn <;> rfl
  · rfl
  · rfl

theorem waitsIn_idle (hI : Inv s) (h : s.waitsIn t w) : s.pc.runs ≠ some t := by
  intro hr
  rcases hI.ucRun t hr with hu | hu <;> rw [h.1] at hu <;> cases hu

/-- A wait goes on until its thread is set for resume, or switched to. -/
theorem waitsIn_micro (hI : Inv s) (hS : SleepInv s) (hm : Micro D.toDiag a s s')
    (ha : a.plain E ∨ a = .interrupt t) (hr : a ≠ .resume t) (hw : ∀ q, a ≠ .wake q t)
    (hrc : ∀ v, a = .rc t v → v ≠ 0) (h : s.waitsIn t w) : s'.waitsIn t w := by
  have hrun := waitsIn_idle hI h
  have hst := waitsIn_state h
  by_cases hx : a.subject = some t
  swap
  · unfold waitsIn
    rw [(micro_sameFor hm hx).ctx]
    exact h
  have hdead : ∀ {x}, (s.ctx x).f = none → x ≠ t := fun hf he => by
    have := hI.live t (resumable_ne hst).1
    exact this (he ▸ hf)
  cases hm with
  | env | gcList | sift => cases hx
  | attr => cases hx; simpa [waitsIn, setCtx] using h
  | rc c v =>
    cases hx
    refine ⟨by simpa [setCtx] using h.1, ?_⟩
    rcases h.2 with h2 | h2 | h2
    · exact .inl (by simpa [setCtx] using h2)
    · exact .inr (.inl (by simpa [setCtx] using h2))
    · exact .inr (.inr ⟨by simpa [setCtx] using h2.1, by simpa [setCtx] using hrc v rfl⟩)
  | enterLib hpc => cases hx; rcases hpc with hpc | ⟨k, hpc, -⟩ <;> simp [hpc, Pc.runs] at hrun
  | expire hpc | append hpc | yield hpc | sleepYield hpc | removeMe hpc | complete _ _ hpc | die hpc
  | quit hpc =>
    cases hx
    simp [hpc, Pc.runs] at hrun
  | resume => cases hx; exact absurd rfl hr
  | wake => cases hx; exact absurd rfl (hw _)
  | interrupt hne hf =>
    cases hx
    refine ⟨by simpa [queueNow, sleepqEnqueue, sleepqRemove, setCtx] using h.1, .inr (.inr ?_)⟩
    simp [queueNow, sleepqEnqueue, sleepqRemove, setCtx, Diag.CO_RC_USER_INTERRUPTED, Diag.ne_zero]
  | createFree hc hid => cases hx; exact absurd rfl (hdead (hS.dead _ (.inl (List.mem_of_find?_eq_some hc))))
  | createNew => cases hx; exact absurd rfl (hdead (hI.fresh _ (Nat.le_refl _)))
  | release hl =>
    cases hx
    exact absurd rfl (hdead (hS.dead _ (hl.imp id And.left)))
  | unlink hf | drop _ hf => cases hx; exact absurd rfl (hdead hf)
  | resumeFast | discard | enter => rcases ha with ha | ha <;> cases ha

theorem waits_micro (hI : Inv s) (hS : SleepInv s) (hm : Micro D.toDiag a s s')
    (ha : a.plain E ∨ ∃ t, a = .interrupt t)
    (hr : ∀ t, ws t ≠ none → a ≠ .resume t ∧ (∀ q, a ≠ .wake q t) ∧ ∀ v, a = .rc t v → v ≠ 0)
    (h : Waits s ws) : Waits s' ws := by
  refine ⟨fun t w ht => ?_, fun t ht => ?_⟩
  · obtain ⟨h1, h2, h3⟩ := hr t (by rw [ht]; exact Option.some_ne_none w)
    have hw := h.sound t w ht
    rcases ha with ha | ⟨c, rfl⟩
    · exact waitsIn_micro hI hS hm (.inl ha) h1 h2 h3 hw
    · by_cases hct : c = t
      · exact waitsIn_micro (E := E) hI hS hm (.inr (by rw [hct])) h1 h2 h3 hw
      · unfold waitsIn
        rw [(micro_sameFor hm (by simp [Act.subject, hct])).ctx]
        exact hw
  · rcases state_micro (t := t) hm with ⟨hst, -⟩ | ⟨st, rfl, hst⟩ | ⟨-, -, hst, -⟩ | ⟨_, -, hst⟩ | hst
    · exact h.complete t (hst ▸ ht)
    · rcases ha with ha | ⟨c, ha⟩
      · rw [hst, show st.polling = false from ha] at ht; cases ht
      · cases ha
    · rw [ready_unpolled hst] at ht; cases ht
    · rw [hst] at ht; cases ht
    · rw [hst] at ht; cases ht

/-- A thread that waits for a descriptor is suspended. -/
theorem Waits.away (h : Waits s ws) (hI : Inv s) (ht : ws t ≠ none) :
    (s.ctx t).state ≠ .dormant ∧ s.pc.runs ≠ some t := by
  obtain ⟨w, hw⟩ := Option.ne_none_iff_exists'.1 ht
  have := h.sound t w hw
  exact ⟨(resumable_ne (waitsIn_state this)).1, waitsIn_idle hI this⟩

/-! ## Micro-steps that the backend does not see -/

/-- Neither the running thread nor the state or key of a suspended one changes. -/
def Act.unseen (E : Prop) : Act → Prop
  | .env | .attr _ | .rc .. | .enterLib .. | .append .. | .removeMe .. | .complete .. | .release _
  | .unlink _ | .drop _ | .gcList | .create _ | .sift => True
  | .expire .. => ¬ E
  | _ => False

theorem unseen_micro (hI : Inv s) (hS : SleepInv s) (ha : a.unseen E) (hm : Micro D.toDiag a s s') :
    s'.pc.runs = s.pc.runs ∧ ((s'.ctx t).state = .dormant ↔ (s.ctx t).state = .dormant) ∧
      (s.pc.runs ≠ some t → (s'.ctx t).state = (s.ctx t).state) ∧
      ((s.ctx t).state ≠ .dormant → E ∨ s.pc.runs ≠ some t →
        (s'.ctx t).expireTicks = (s.ctx t).expireTicks) := by
  have hrun : s'.pc.runs = s.pc.runs := by
    cases hm with
    | enterLib hpc => rcases hpc with hpc | ⟨k, hpc, -⟩ <;> simp [inLib, hpc, Pc.runs]
    | removeMe hpc => simp [hpc, Pc.runs]
    | complete _ _ hpc => simp [hpc, Pc.runs]
    | sift hs => obtain ⟨-, -, -, rfl⟩ := sift_cases hs; rfl
    | yield | sleepYield | resume | resumeFast | interrupt | wake | die | quit | discard
    | enter => cases ha
    | _ => rfl
  refine ⟨hrun, ?_⟩
  by_cases hx : a.subject = some t
  swap
  · rw [(micro_sameFor hm hx).ctx]
    exact ⟨Iff.rfl, fun _ => rfl, fun _ _ => rfl⟩
  have dead : ∀ {x : Ctx}, (s.ctx t).f = none → x.state = .dormant → (x.state = .dormant ↔
      (s.ctx t).state = .dormant) ∧ (s.pc.runs ≠ some t → x.state = (s.ctx t).state) ∧
      ((s.ctx t).state ≠ .dormant → E ∨ s.pc.runs ≠ some t →
        x.expireTicks = (s.ctx t).expireTicks) := by
    intro x hf hx
    have hd : (s.ctx t).state = .dormant := by
      by_contra hd
      exact hI.live t hd hf
    simp [hx, hd]
  cases hm with
  | env | gcList | sift => cases hx
  | append | removeMe | complete | unlink => exact ⟨Iff.rfl, fun _ => rfl, fun _ _ => rfl⟩
  | attr | rc | drop => cases hx; simp [setCtx]
  | enterLib hpc hst =>
    cases hx
    have hr : s.pc.runs = some t := by rcases hpc with hpc | ⟨k, hpc, -⟩ <;> rw [hpc] <;> rfl
    simp [inLib, setCtx, hr, hI.run t hr, (resumable_ne hst).1]
  | expire hpc =>
    cases hx
    have hr : s.pc.runs = some t := by rw [hpc]; rfl
    simp [setCtx, hr, show ¬ E from ha]
  | createFree hc =>
    cases hx
    obtain ⟨hf, hd⟩ := hS.created hI (Micro.createFree (D := D.toDiag) hc ‹_› 0 0)
    simp [setCtx]
  | createNew => cases hx; simpa [setCtx] using dead (hI.fresh _ (Nat.le_refl _)) rfl
  | release hl =>
    cases hx
    simpa [setCtx] using dead (x := (s.ctx t).cleared) (hS.dead _ (hl.imp id And.left)) rfl
  | yield | sleepYield | resume | resumeFast | interrupt | wake | die | quit | discard
  | enter => cases ha

theorem unseen_files (h : a.unseen E) : a.files = none := by
  cases a <;> first | rfl | cases h

theorem pictures_unseen (hI : Inv s) (hS : SleepInv s) (hc : a.calm s) (ha : a.unseen E)
    (hm : Micro D.toDiag a s s') (h : Pictures E s ws k) : Pictures E s' ws k := by
  have hs := fun t => unseen_micro (t := t) hI hS ha hm
  have hrun := (hs 0).1
  refine ⟨h.me.trans hrun.symm, fun t => ?_, fun t => ?_, h.wait, fun t hd hE => ?_, fun t ht => ?_⟩
  · rw [h.live, Ne, Ne, (hs t).2.1]
  · rw [h.state, seen, seen, hrun]
    split
    · rfl
    · exact ((hs t).2.2.1 ‹_›).symm
  · rw [hrun] at hE
    have hd' : (s.ctx t).state ≠ .dormant := fun he => hd ((hs t).2.1.2 he)
    rw [h.ticks t hd' hE, (hs t).2.2.2 hd' hE]
  · rcases (filed_micro hS hc hm).came ht with h1 | h1
    · exact h.queued t h1
    · rw [unseen_files ha] at h1; cases h1

/-! ## Micro-steps that it sees -/

theorem Pictures.update {E' : Prop} (h : Pictures E s ws k) (hS : SleepInv s) (hc : a.calm s)
    (hm : Micro D.toDiag a s s') (hx : a.subject = some c)
    (hE : ∀ t, t ≠ c → E' ∨ s'.pc.runs ≠ some t → E ∨ s.pc.runs ≠ some t)
    (hk : ∀ t, t ≠ c → k'.thr t = k.thr t) (hme : k'.me = s'.pc.runs)
    (hl : (k'.thr c).live = true ↔ (s'.ctx c).state ≠ .dormant) (hst : (k'.thr c).state = s'.seen c)
    (hw : (k'.thr c).wait = ws c)
    (ht : (s'.ctx c).state ≠ .dormant → (k'.thr c).expireTicks = (s'.ctx c).expireTicks)
    (hq : s'.filed c → (k'.thr c).queued = true) : Pictures E' s' ws k' := by
  have same : ∀ {t}, t ≠ c → SameFor t s s' := fun ht => micro_sameFor hm fun he => by
    rw [hx] at he
    exact ht (Option.some.inj he).symm
  refine ⟨hme, fun t => ?_, fun t => ?_, fun t => ?_, fun t hd hE' => ?_, fun t hf => ?_⟩ <;>
    rcases eq_or_ne t c with rfl | htc
  · exact hl
  · rw [hk t htc, h.live, (same htc).ctx]
  · exact hst
  · rw [hk t htc, h.state, seen, seen, (same htc).ctx]
    by_cases hr : s.pc.runs = some t
    · rw [if_pos hr, if_pos ((same htc).runs.2 hr)]
    · rw [if_neg hr, if_neg (fun he => hr ((same htc).runs.1 he))]
  · exact hw
  · rw [hk t htc]; exact h.wait t
  · exact ht hd
  · rw [(same htc).ctx] at hd ⊢
    rw [hk t htc]
    exact h.ticks t hd (hE t htc hE')
  · exact hq hf
  · rw [hk t htc]
    rcases (filed_micro hS hc hm).came hf with h1 | h1
    · exact h.queued t h1
    · rw [files_subject h1] at hx
      exact absurd (Option.some.inj hx) htc

theorem pictures_yield {kk : Call} (hS : SleepInv s) (hI : Inv s) (hk : kk.coState.elsewhere)
    (hm : Micro D.toDiag (.yield c kk false) s s') (h : Pictures True s ws k) :
    ∃ k', Quietly D ws k k' ∧ Pictures True s' ws k' := by
  have hcalm : Act.calm s (.yield c kk false) := trivial
  have hup := fun k' => @Pictures.update _ _ _ _ _ _ _ k' _ True h hS hcalm hm rfl
    (fun _ _ _ => .inl trivial)
  have hfile := (filed_micro (t := c) hS hcalm hm).came
  cases hm with
  | yield hpc hsus ht =>
    have hr : s.pc.runs = some c := by rw [hpc]; rfl
    have hme : k.me = some c := h.me.trans hr
    have hst : ((s.parked c kk false).ctx c).state = kk.coState := by
      simpa [parked, setCtx] using hsus.state
    refine ⟨{ k.setThr c { k.thr c with state := kk.coState } with me := none },
      .one (e := .block kk.coState none) rfl (by simp [kevStep, hme, hk]) rfl fun t ht => ?_,
      hup _ (fun t ht => setThr_ne ht) rfl ?_ ?_ ?_ ?_ ?_⟩
    · by_cases htc : t = c
      · subst htc; simp [KevSt.setThr]
      · simp [KevSt.setThr, htc]
    · have hd : (s.ctx c).state ≠ .dormant := hI.run c hr
      simpa [KevSt.setThr, parked, setCtx, hd] using (h.live c).2 hd
    · simpa [KevSt.setThr, seen, parked, Pc.runs, setCtx] using hsus.state.symm
    · simpa [KevSt.setThr] using h.wait c
    · intro hd
      simpa [KevSt.setThr, parked, setCtx] using h.ticks c (hI.run c hr) (.inl trivial)
    · intro hf
      simpa [KevSt.setThr] using h.queued c ((hfile hf).resolve_right (by simp [Act.files]))

theorem pictures_sleepYield {kk : Call} {d : Nat} {dormant : Bool} (hS : SleepInv s) (hI : Inv s)
    (hk : kk.coState.elsewhere) (hc : Act.calm s (.sleepYield c d kk false dormant))
    (hm : Micro D.toDiag (.sleepYield c d kk false dormant) s s') (h : Pictures E s ws k) :
    ∃ k', Quietly D ws k k' ∧ Pictures True s' ws k' := by
  have hup := fun hE k' => @Pictures.update _ _ _ _ _ _ _ k' _ True h hS hc hm rfl hE
  cases hm with
  | sleepYield hpc hsus ht =>
    have hr : s.pc.runs = some c := by rw [hpc]; rfl
    have hme : k.me = some c := h.me.trans hr
    have hd : (s.ctx c).state ≠ .dormant := hI.run c hr
    refine ⟨{ k.setThr c { k.thr c with state := kk.coState, expireTicks := d, queued := true } with
        me := none }, .one (e := .block kk.coState (some d)) rfl (by simp [kevStep, hme, hk]) rfl
        fun t ht => ?_, hup (fun t ht _ => .inr ?_) _ (fun t ht => setThr_ne ht) rfl ?_ ?_ ?_ ?_ ?_⟩
    · by_cases htc : t = c
      · subst htc; simp [KevSt.setThr]
      · simp [KevSt.setThr, htc]
    · rw [hr]; exact fun he => ht (Option.some.inj he).symm
    · simpa [KevSt.setThr, parked, asleep, setCtx, hd] using (h.live c).2 hd
    · simpa [KevSt.setThr, seen, parked, asleep, Pc.runs, setCtx] using hsus.state.symm
    · simpa [KevSt.setThr] using h.wait c
    · simp [KevSt.setThr, parked, asleep, setCtx]
    · simp [KevSt.setThr]

/-- What is set for resume is new to the backend when it is dormant. -/
theorem pictures_ready (h : Pictures E s ws k) (hI : Inv s) (hS : SleepInv s) (hw : Waits s ws)
    (hc : a.calm s) (hm : Micro D.toDiag a s s') (hf : a.files = some c) (hne : s.me ≠ some c)
    (hpc : s'.pc = s.pc) (hst : (s'.ctx c).state = .setResume)
    (hx : (s'.ctx c).expireTicks = SLEEP_RESUME_NOW) :
    ∃ k', Quietly D ws k k' ∧ Pictures E s' ws k' := by
  have hrun : s.pc.runs ≠ some c := fun hr => hne (hI.me c hr)
  have hseen : s'.seen c = .setResume := by rw [seen, hpc, if_neg hrun, hst]
  have hme : k.me = s'.pc.runs := by rw [hpc]; exact h.me
  have hup := fun k' => @Pictures.update _ _ _ _ _ _ _ k' _ E h hS hc hm (files_subject hf)
    (fun t _ => by rw [hpc]; exact id)
  by_cases hd : (s.ctx c).state = .dormant
  · have hl : (k.thr c).live = false := by
      by_contra hl
      exact (h.live c).1 (by simpa using hl) hd
    have hn : ws c = none := by
      by_contra hn
      exact (hw.away hI hn).1 hd
    refine ⟨k.setThr c { KevThr.init with
        live := true, state := .setResume, expireTicks := SLEEP_RESUME_NOW, queued := true },
      .one (e := .spawn c) rfl (by simp [kevStep, hl]) rfl fun t ht => ?_,
      hup _ (fun t ht => setThr_ne ht) hme ?_ ?_ ?_ ?_ ?_⟩
    · have htc : t ≠ c := fun he => ht (he ▸ hn)
      rw [setThr_ne htc]
      exact ⟨rfl, rfl, rfl⟩
    · simp [KevSt.setThr, hst]
    · simp [KevSt.setThr, hseen]
    · simp [KevSt.setThr, KevThr.init, hn]
    · simp [KevSt.setThr, hx]
    · simp [KevSt.setThr]
  · have hl : (k.thr c).live = true := (h.live c).2 hd
    refine ⟨k.setResume c, .one (e := .wake c) rfl ?_ ?_ fun t ht => ?_,
      hup _ (fun t ht => ?_) ?_ ?_ ?_ ?_ ?_ ?_⟩
    · simp [kevStep, h.me, hrun]
    · simp only [KevSt.setResume, hl, if_true]; rfl
    · by_cases htc : t = c
      · subst htc; simp [KevSt.setResume, hl, KevSt.setThr]
      · simp [KevSt.setResume, hl, KevSt.setThr, htc]
    · simp [KevSt.setResume, hl, KevSt.setThr, ht]
    · simpa [KevSt.setResume, hl] using hme
    · simp [KevSt.setResume, hl, KevSt.setThr, hst]
    · simp [KevSt.setResume, hl, KevSt.setThr, hseen]
    · simpa [KevSt.setResume, hl, KevSt.setThr] using h.wait c
    · simp [KevSt.setResume, hl, KevSt.setThr, hx]
    · simp [KevSt.setResume, hl, KevSt.setThr]

theorem pictures_die (hI : Inv s) (hS : SleepInv s) (hw : Waits s ws)
    (hm : Micro D.toDiag (.die c) s s') (h : Pictures True s ws k) :
    ∃ k', Quietly D ws k k' ∧ Pictures True s' ws k' := by
  have hcalm : Act.calm s (.die c) := trivial
  have hup := fun k' => @Pictures.update _ _ _ _ _ _ _ k' _ True h hS hcalm hm rfl
    (fun _ _ _ => .inl trivial)
  have hfile := (filed_micro (t := c) hS hcalm hm).came
  cases hm with
  | die hpc hst =>
    have hr : s.pc.runs = some c := by rw [hpc]; rfl
    have hn : ws c = none := by
      by_contra hn
      exact (hw.away hI hn).2 hr
    refine ⟨{ k.freed c with me := none },
      .one (e := .exit) rfl (by simp [kevStep, h.me.trans hr]) rfl fun t ht => ?_,
      hup _ (fun t ht => setThr_ne ht) rfl ?_ ?_ ?_ ?_ ?_⟩
    · have htc : t ≠ c := fun he => ht (he ▸ hn)
      simp [KevSt.freed, KevSt.setThr, htc]
    · simp [KevSt.freed, KevSt.setThr, buried, setCtx, Ctx.cleared]
    · simp [KevSt.freed, KevSt.setThr, seen, buried, Pc.runs, setCtx, Ctx.cleared]
    · simp [KevSt.freed, KevSt.setThr, hn]
    · simp [KevSt.freed, KevSt.setThr, buried, setCtx, Ctx.cleared]
    · intro hf
      have hf := (hfile hf).resolve_right (by simp [Act.files])
      exact absurd hf fun hf => hf.elim (hS.running c hr).1 (hS.running c hr).2

theorem pictures_micro (hI : Inv s) (hS : SleepInv s) (hw : Waits s ws) (hc : a.calm s)
    (ha : a.plain True) (hm : Micro D.toDiag a s s') (h : Pictures True s ws k) :
    ∃ k', Quietly D ws k k' ∧ Pictures True s' ws k' := by
  have unseen (hu : a.unseen True) : ∃ k', Quietly D ws k k' ∧ Pictures True s' ws k' :=
    ⟨k, .refl k, pictures_unseen hI hS hc hu hm h⟩
  cases a with
  | yield c kk b =>
    obtain ⟨-, rfl, hk⟩ := ha
    exact pictures_yield hS hI hk hm h
  | sleepYield c d kk b dormant =>
    obtain ⟨rfl, hk⟩ := ha
    exact pictures_sleepYield hS hI hk hc hm h
  | resume c =>
    have hready := pictures_ready h hI hS hw hc hm rfl
    cases hm with
    | resume hne =>
      refine hready hne rfl ?_ ?_ <;> simp [queueNow, sleepqEnqueue, sleepqRemove, setCtx]
  | wake q c =>
    have hready := pictures_ready h hI hS hw hc hm rfl
    have hfile := fun t => (filed_micro (t := t) hS hc hm).came
    cases hm with
    | @wake _ _ _ rest hq hne hx =>
      by_cases hf : (s.ctx c).f = none
      · -- a context without a thread is only taken off the queue
        refine ⟨k, .refl k, ?_⟩
        unfold woken
        rw [if_pos hf]
        exact { h with }
      · refine hready hne (by unfold woken; split <;> rfl) ?_ ?_ <;> unfold woken <;>
          rw [if_neg hf] <;> simp [queueNow, sleepqEnqueue, sleepqRemove, setCtx]
  | die c => exact pictures_die hI hS hw hm h
  | interrupt | resumeFast | enter | discard | quit => cases ha
  | _ => exact unseen (by trivial)

/-! ## Interrupts -/

theorem clears_unpolled {x : KevThr} (h : x.state.polling = false) : x.clears = [] := by
  unfold KevThr.clears
  cases hst : x.state <;> simp_all [CoState.polling]

/-- What the interrupt of `c` leaves in the queue, and of the waits. -/
structure Struck (D : KevBuild) (c : Ptr) (ws : Ptr → Option KevWait) (k k' : KevSt) : Prop where
  shared : k'.shared = (k.clearEvent c).shared
  thr : ∀ t, ws t ≠ none → (k'.thr t).rc = (if t = c then D.CO_RC_USER_INTERRUPTED else (k.thr t).rc) ∧
    (k'.thr t).ident = (k.thr t).ident ∧ (k'.thr t).filter = (k.thr t).filter

theorem setInterrupt_struck (hl : (k.thr c).live) : Struck D c ws k (k.setInterrupt D c) := by
  refine ⟨?_, fun t _ => ?_⟩
  · simp only [KevSt.setInterrupt, hl, if_true]; rfl
  · have h := (clearEvent_spec k c).1
    by_cases htc : t = c
    · subst htc; simp [KevSt.setInterrupt, hl, KevSt.setThr, h]
    · simp [KevSt.setInterrupt, hl, KevSt.setThr, h, htc]

theorem pictures_interrupt (h : Pictures E s ws k) (hI : Inv s) (hS : SleepInv s) (hw : Waits s ws)
    (hc : Act.calm s (.interrupt c)) (hm : Micro D.toDiag (.interrupt c) s s') :
    ∃ k1 k', Quietly D ws k k1 ∧ (k1 = k ∨ (k1.thr c).clears = []) ∧
      kevStep D k1 (.interrupt c) = some k' ∧ Struck D c ws k k' ∧ Pictures E s' ws k' := by
  cases hm with
  | interrupt hne hf =>
    have hrun : s.pc.runs ≠ some c := fun hr => hne (hI.me c hr)
    -- the step itself, once the backend knows the thread
    have strike : ∀ k1 : KevSt, k1.me = s.pc.runs → (k1.thr c).live = true →
        (k1.thr c).wait = ws c → (∀ t, t ≠ c → k1.thr t = k.thr t) →
        kevStep D k1 (.interrupt c) = some (k1.setInterrupt D c) ∧
        Pictures E (s.queueNow c
          { s.ctx c with rc := D.CO_RC_USER_INTERRUPTED, state := .setInterrupt }) ws
          (k1.setInterrupt D c) := by
      intro k1 hme hl hwait hk1
      have hthr := (clearEvent_spec k1 c).1
      refine ⟨by simp [kevStep, hme, hrun], @Pictures.update D E _ _ _ ws k _ _ E h hS hc
        (.interrupt hne hf) rfl (fun _ _ => id) (fun t ht => ?_) ?_ ?_ ?_ ?_ ?_ ?_⟩
      · simp [KevSt.setInterrupt, hl, KevSt.setThr, ht, hthr, hk1 t ht]
      · rw [show (s.queueNow c _).pc = s.pc from rfl, ← hme]
        simp [KevSt.setInterrupt, hl, (clearEvent_spec k1 c).2.1]
      · simp [KevSt.setInterrupt, hl, KevSt.setThr, hthr, queueNow, sleepqEnqueue, sleepqRemove,
          setCtx]
      · simp [KevSt.setInterrupt, hl, KevSt.setThr, seen, queueNow, sleepqEnqueue, sleepqRemove,
          setCtx, hrun]
      · simpa [KevSt.setInterrupt, hl, KevSt.setThr, hthr] using hwait
      · simp [KevSt.setInterrupt, hl, KevSt.setThr, queueNow, sleepqEnqueue, sleepqRemove, setCtx]
      · simp [KevSt.setInterrupt, hl, KevSt.setThr]
    by_cases hd : (s.ctx c).state = .dormant
    · have hl : (k.thr c).live = false := by
        by_contra hl
        exact (h.live c).1 (by simpa using hl) hd
      have hn : ws c = none := by
        by_contra hn
        exact (hw.away hI hn).1 hd
      have hcl : (k.thr c).clears = [] := clears_unpolled (by rw [h.state, seen, if_neg hrun, hd]; rfl)
      obtain ⟨k1, hk1⟩ : ∃ k1, k1 = k.setThr c { KevThr.init with
        live := true, state := .setResume, expireTicks := SLEEP_RESUME_NOW, queued := true } :=
        ⟨_, rfl⟩
      have hcl1 : (k1.thr c).clears = [] := by
        rw [hk1]; exact clears_unpolled (by simp [KevSt.setThr, CoState.polling])
      have hne1 : ∀ t, t ≠ c → k1.thr t = k.thr t := fun t ht => by rw [hk1]; exact setThr_ne ht
      have hsh : k1.shared = k.shared := by rw [hk1]; rfl
      obtain ⟨h1, h2⟩ := strike k1 (by rw [hk1]; exact h.me) (by simp [hk1, KevSt.setThr])
        (by simp [hk1, KevSt.setThr, KevThr.init, hn]) hne1
      have h3 : Struck D c ws k1 (k1.setInterrupt D c) :=
        setInterrupt_struck (by simp [hk1, KevSt.setThr])
      have hat : ∀ t, ws t ≠ none → t ≠ c := fun t ht he => ht (he ▸ hn)
      refine ⟨k1, _, .one (e := .spawn c) rfl (by simp [kevStep, hl, hk1]) hsh fun t ht => ?_,
        .inr hcl1, h1, ⟨h3.shared.trans (KevSt.clearEvent_congr hsh (hcl1.trans hcl.symm)),
          fun t ht => ?_⟩, h2⟩
      · rw [hne1 t (hat t ht)]; exact ⟨rfl, rfl, rfl⟩
      · rw [← hne1 t (hat t ht)]; exact h3.thr t ht
    · have hl : (k.thr c).live = true := (h.live c).2 hd
      obtain ⟨h1, h2⟩ := strike k h.me hl (h.wait c) fun _ _ => rfl
      exact ⟨k, _, .refl k, .inl rfl, h1, setInterrupt_struck hl, h2⟩

end
end Mnthr

import Mnthr.L6Loop.Backend
import Mnthr.L6Loop.Polls

/-!
# Switches, as the backend sees them

The steps in which a thread begins to wait for a descriptor, or is switched to:
`wait_refines`, `next_refines`, `entry_refines` and `return_refines`. A thread
that is switched back to in a wait leaves the model one event behind, until the
wait returns.
-/
namespace Mnthr
open St Kqueue

section
variable {D : KevBuild} {s s' : St} {t : Ptr}

theorem Waits.switched {ws : Ptr → Option KevWait} (h : Waits s ws)
    (hu : ∀ u, u ≠ t → s'.ctx u = s.ctx u) (ht : (s'.ctx t).state.polling = false) :
    Waits s' (Function.update ws t none) := by
  refine ⟨fun u w hw => ?_, fun u hp => ?_⟩ <;> rcases eq_or_ne u t with rfl | hut
  · simp at hw
  · rw [Function.update_of_ne hut] at hw
    have := h.sound u w hw
    rwa [waitsIn, hu u hut]
  · rw [ht] at hp
    cases hp
  · rw [hu u hut] at hp
    rw [Function.update_of_ne hut]
    exact h.complete u hp

theorem poll_returned {st : CoState} {b lost : Bool} (hI : Inv s) (hpc : s.pc = .post t (.poll st))
    (h : exec (St.step D.toDiag) s
      (if lost then [.cont b, .call (.pollFail false)] else [.cont b]) = some s') :
    Returned s s' t := by
  have hme := hI.me t (by rw [hpc]; rfl)
  cases lost with
  | false =>
    obtain ⟨u, hu, hs⟩ := exec_cons h
    cases hs
    exact returned_cont hI hpc hu
  | true =>
    obtain ⟨u, hu, hs⟩ := exec_cons h
    obtain ⟨v, hv, hs⟩ := exec_cons hs
    cases hs
    have hr := returned_cont hI hpc hu
    simp only [step] at hv
    split at hv
    · obtain ⟨c, hc, rfl⟩ := Option.map_eq_some_iff.1 hv
      obtain rfl : c = t := Option.some.inj (hc.symm.trans (hr.me.trans hme))
      refine ⟨hr.pc, hr.me, fun x => ?_, fun x hx => ?_, hr.filed⟩
      · by_cases hxc : x = c
        · subst hxc
          simp only [setCtx, Function.update_self]
          rw [hr.ctx x]
        · simpa [setCtx, hxc] using hr.ctx x
      · simpa [setCtx, hx] using hr.other x hx
    · cases hv

end

namespace KevSt
variable {D : KevBuild} {k : KevSt} {t : Ptr} {w : KevWait}

/-- `t` is switched to; if it waits, the wait goes on. -/
def entered (k : KevSt) (t : Ptr) : KevSt :=
  { k.setThr t { k.thr t with state := .resumed } with me := some t }

theorem pollerResume_eq (h : (k.thr t).state.resumable) : k.pollerResume D t =
    match (k.thr t).wait with
    | none => some (k.entered t)
    | some w => (k.entered t).waitEnd D t w := if_pos h

theorem addEvents_max (ps : List KevPair) (k : KevSt) (t : Ptr) :
    (ps.foldl (fun s p => s.addEvent p t) k).eventMax = k.eventMax := by
  induction ps generalizing k with
  | nil => rfl
  | cons p ps ih => exact ih _

theorem addEvents_batch (ps : List KevPair) (k : KevSt) (t : Ptr) :
    (ps.foldl (fun s p => s.addEvent p t) k).batch = k.batch :=
  congrArg KevQueue.batch (addEvents_spec ps k t).2

/-- The batch loop takes an entry, and deletes its registration unless it
carries an error. -/
def taken (k : KevSt) (kev : Kevent) (rest : List (Nat × Kevent)) : KevSt :=
  let k1 := { k with batch := rest }
  if kev.error then k1 else k1.discardEvent kev.pair kev.udata

theorem entry_taken {i : Nat} {kev : Kevent} {rest : List (Nat × Kevent)}
    (hb : k.batch = (i, kev) :: rest) (hid : kev.pair.ident ≠ -1) :
    k.entry D = (k.taken kev rest).deliver D i kev (if kev.error then D.CO_RC_POLLER else 0) := by
  unfold entry taken
  simp only [hb, if_neg hid]
  split <;> rfl

theorem taken_spec (k : KevSt) (kev : Kevent) (rest : List (Nat × Kevent)) :
    (k.taken kev rest).thr = k.thr ∧ (k.taken kev rest).me = k.me := by
  unfold taken
  simp only
  split <;> exact ⟨rfl, rfl⟩

theorem taken_shared (k : KevSt) (kev : Kevent) (rest : List (Nat × Kevent)) :
    (k.taken kev rest).shared = k.shared.taken kev rest := by
  unfold taken
  simp only
  split <;> rfl

theorem waitBegin_thr : (k.waitBegin t w).thr = Function.update k.thr t { k.thr t with
    ident := w.fd, filter := w.fn.pdataFilter, state := w.fn.state, wait := some w } := by
  simp [waitBegin, setThr, (addEvents_spec w.pairs k t).1]

end KevSt
namespace Loop

section
variable {D : KevBuild} {C : KevSt → KevEvent → Prop} {l l' l1 : Loop} {k k' : KevSt}
  {t : Ptr} {w : KevWait}

/-- What the waits do not read of a thread that does not wait. -/
theorem Seen.setThr {x : KevThr} (h : l.Seen k) (ht : l.waits t = none)
    (hl : x.live = (k.thr t).live) (hst : x.state = (k.thr t).state)
    (hx : x.expireTicks = (k.thr t).expireTicks) (hq : x.queued = (k.thr t).queued)
    (hw : x.wait = (k.thr t).wait) : l.Seen (k.setThr t x) := by
  have hother : ∀ u, l.waits u ≠ none → (k.setThr t x).thr u = k.thr u := fun u hu =>
    setThr_ne fun he => hu (he ▸ ht)
  have same : ∀ {α : Type} (get : KevThr → α), get x = get (k.thr t) → ∀ u,
      get ((k.setThr t x).thr u) = get (k.thr u) := by
    intro α get hg u
    by_cases hut : u = t
    · subst hut; rwa [setThr_self]
    · rw [setThr_ne hut]
  refine ⟨⟨⟨h.agrees.pictures.me, fun u => ?_, fun u => ?_, fun u => ?_, fun u => ?_, fun u => ?_⟩,
    h.agrees.waits, fun u hu => ?_⟩, h.shared, fun u hu => ?_⟩
  · rw [same KevThr.live hl]; exact h.agrees.pictures.live u
  · rw [same KevThr.state hst]; exact h.agrees.pictures.state u
  · rw [same KevThr.wait hw]; exact h.agrees.pictures.wait u
  · rw [same KevThr.expireTicks hx]; exact h.agrees.pictures.ticks u
  · rw [same KevThr.queued hq]; exact h.agrees.pictures.queued u
  · rw [hother u hu]; exact h.agrees.rc u hu
  · rw [hother u hu]; exact h.thr u hu

/-- `t` is suspended in `w`. -/
theorem agrees_waiting (h : Agrees l.waits l.st k) (hpc : l.st.pc = .user t)
    (hd : (l.st.ctx t).state ≠ .dormant) (hrc : (k.thr t).rc = (l.st.ctx t).rc) :
    Agrees (Function.update l.waits t (some w))
      ((l.st.inLib t w.fn.state).parked t (.poll w.fn.state) false) (k.waitBegin t w) := by
  have hr : l.st.pc.runs = some t := by rw [hpc]; rfl
  have hlive := (h.pictures.live t).2 hd
  have hst : w.fn.state ≠ .dormant := by cases w.fn <;> simp [KevFn.state]
  have same : ∀ {u}, u ≠ t →
      (((l.st.inLib t w.fn.state).parked t (.poll w.fn.state) false).ctx u) = l.st.ctx u ∧
      (k.waitBegin t w).thr u = k.thr u := by
    intro u hu
    simp [KevSt.waitBegin_thr, parked, inLib, setCtx, hu]
  refine ⟨⟨rfl, fun u => ?_, fun u => ?_, fun u => ?_, fun u hdu _ => ?_, fun u hf => ?_⟩,
    ⟨fun u w' hw => ?_, fun u hp => ?_⟩, fun u hu => ?_⟩ <;> rcases eq_or_ne u t with rfl | hut
  · simp [KevSt.waitBegin_thr, parked, inLib, setCtx, hlive, hst]
  · rw [(same hut).1, (same hut).2, h.pictures.live]
  · simp [KevSt.waitBegin_thr, seen, Pc.runs, parked, inLib, setCtx]
  · have hrun : l.st.pc.runs ≠ some u := by rw [hr]; exact fun he => hut (Option.some.inj he).symm
    have := h.pictures.state u
    rw [seen, if_neg hrun] at this
    rw [(same hut).2, this, seen, if_neg (by simp [parked, Pc.runs]), (same hut).1]
  · simp [KevSt.waitBegin_thr]
  · rw [(same hut).2, h.pictures.wait, Function.update_of_ne hut]
  · simpa [KevSt.waitBegin_thr, parked, inLib, setCtx] using h.pictures.ticks u hd (.inl trivial)
  · rw [(same hut).1] at hdu ⊢
    rw [(same hut).2]
    exact h.pictures.ticks u hdu (.inl trivial)
  · simpa [KevSt.waitBegin_thr] using h.pictures.queued u hf
  · rw [(same hut).2]; exact h.pictures.queued u hf
  · rw [Function.update_self] at hw
    cases hw
    exact ⟨by simp [parked, setCtx], .inl (by simp [parked, inLib, setCtx])⟩
  · rw [Function.update_of_ne hut] at hw
    have := h.waits.sound u w' hw
    rwa [waitsIn, (same hut).1]
  · simp
  · rw [(same hut).1] at hp
    rw [Function.update_of_ne hut]
    exact h.waits.complete u hp
  · simpa [KevSt.waitBegin_thr, parked, inLib, setCtx] using hrc
  · rw [Function.update_of_ne hut] at hu
    rw [(same hut).1, (same hut).2]
    exact h.rc u hu

theorem wait_refines {b : Bool} (hR : Refines D C l k) (hC : Shared C)
    (hc : CalmLoop D l (.wait w b)) (ha : l.Apart (.wait w b))
    (ht : ∀ ke ∈ l.tells (.wait w b), C l.kev ke) (hs : l.step D (.wait w b) = some l') :
    ∃ k', Follows (kevStep D) C k k' ∧ Refines D C l' k' := by
  obtain rfl : b = false := ha
  have hI := hR.inv.inv
  have hinv := loopInv_step hR.inv hc hs
  have hpc' : l'.pc = l.pc := phase_step hs
  obtain ⟨l1, hb, hst, he⟩ := step_some hs
  obtain ⟨s', hs', hst⟩ := exec_cons hst
  cases hst
  obtain ⟨t, hpc, hs'⟩ := block_poll (by cases w.fn <;> rfl) hI hs'
  have hr : l.st.pc.runs = some t := by rw [hpc]; rfl
  have hme := hI.me t hr
  have hseen := hR.views.seen (waitOf_none (.inr ⟨t, hpc⟩))
  have hn : l.waits t = none := by
    by_contra hn
    exact (hseen.agrees.waits.away hI hn).2 hr
  simp only [backend, hme, Option.map_some, Option.some.injEq] at hb
  subst hb
  -- the model stores the return code first
  have hseen1 := hseen.setThr (x := { k.thr t with rc := (l.st.ctx t).rc }) hn rfl rfl rfl rfl rfl
  obtain ⟨k1, hk1⟩ : ∃ k1, k1 = k.setThr t { k.thr t with rc := (l.st.ctx t).rc } := ⟨_, rfl⟩
  rw [← hk1] at hseen1
  have hme1 : k1.me = some t := hseen1.agrees.pictures.me.trans hr
  have hstep1 : kevStep D k (.setRc t (l.st.ctx t).rc) = some k1 := by
    rw [kevStep, if_pos (Or.inl (hseen.agrees.pictures.me.trans hr)), hk1]
  have hstep2 : kevStep D k1 (.wait w) = some (k1.waitBegin t w) := by
    simp only [kevStep, hme1, Option.map_some]
  have hag := agrees_waiting (w := w) hseen1.agrees hpc (hI.run t hr) (by rw [hk1]; simp [KevSt.setThr])
  have hwaits : l'.waits = Function.update l.waits t (some w) := by
    rw [he]
    funext u
    by_cases hut : u = t
    · subst hut; simp [keep, KevSt.waitBegin_thr]
    · simp [keep, KevSt.waitBegin_thr, hut, kev, thr]
  have hpd : l'.pdata = Function.update l.pdata t ⟨w.fd, w.fn.pdataFilter, (l.pdata t).idx⟩ := by
    rw [he]
    funext u
    by_cases hut : u = t
    · subst hut; simp [keep, KevSt.waitBegin_thr, kev, thr]
    · simp [keep, KevSt.waitBegin_thr, hut, kev, thr]
  have hseen' : l'.Seen (k1.waitBegin t w) := by
    refine ⟨?_, ?_, fun u hu => ?_⟩
    · rw [hwaits, hs']; exact hag
    · rw [he]
      show _ = (l.kev.waitBegin t w).shared
      rw [KevSt.waitBegin_shared, KevSt.waitBegin_shared, hseen1.shared]
    · rw [hpd]
      by_cases hut : u = t
      · subst hut; simp [KevSt.waitBegin_thr]
      · rw [hwaits, Function.update_of_ne hut] at hu
        simpa [KevSt.waitBegin_thr, hut] using hseen1.thr u hu
  have hbatch : l'.batch = l.batch := by
    rw [he]; exact KevSt.addEvents_batch w.pairs l.kev t
  have hmax : l'.eventMax = l.eventMax := by
    rw [he]; exact KevSt.addEvents_max w.pairs l.kev t
  exact ⟨_, (Follows.one (hC.silent _ _ rfl) hstep1).trans
      (.one (hC.seen l k1 _ hI hseen1 (ht _ (List.mem_singleton.2 rfl))) hstep2),
    hseen'.refines hinv (by rw [hs']; rfl) (fun hp => by rw [hbatch]; exact hR.batch (hpc' ▸ hp))
      (by rw [hmax]; exact hR.max)⟩

/-! ## The thread that runs next -/

theorem pictures_enter (k1 : KevSt) {ws : Ptr → Option KevWait} {s s' : St} {poll : Bool}
    (hS : SleepInv s) (hS' : SleepInv s') (hc : Act.calm s (.enter t poll))
    (hm : Micro D.toDiag (.enter t poll) s s') (h : Pictures True s ws k)
    (hd : (s.ctx t).state ≠ .dormant) (hk : ∀ u, u ≠ t → k1.thr u = k.thr u)
    (hl : (k1.thr t).live = (k.thr t).live) (hw : (k1.thr t).wait = (k.thr t).wait)
    (hx : (k1.thr t).expireTicks = (s'.ctx t).expireTicks) :
    Pictures True s' ws (k1.entered t) := by
  obtain ⟨hr, hst⟩ : s'.pc.runs = some t ∧ (s'.ctx t).state = .resumed := by
    cases hm with
    | enter hpc hp hst hs => obtain ⟨h1, -, h2, -⟩ := enter_spec hs; exact ⟨h1, h2⟩
  refine h.update hS hc hm rfl (fun _ _ _ => .inl trivial) (fun u hu => ?_) hr.symm ?_ ?_ ?_ ?_ ?_
  · simp [KevSt.entered, KevSt.setThr, hu, hk u hu]
  · simp [KevSt.entered, KevSt.setThr, hl, hst, h.live t, hd]
  · simp [KevSt.entered, KevSt.setThr, seen, hr]
  · simp [KevSt.entered, KevSt.setThr, hw, h.wait t]
  · simp [KevSt.entered, KevSt.setThr, hx]
  · exact fun hf => absurd hf fun hf => hf.elim (hS'.running t hr).1 (hS'.running t hr).2

/-- The event of the switch is there; if the thread waits, the model takes it
when the wait returns. -/
theorem Returning.views {ke : KevEvent} {k1 : KevSt} (hI : Inv l.st)
    (hp : Pictures True l.st l.waits k1) (hw : Waits l.st (Function.update l.waits t none))
    (hrc : ∀ u, l.waits u ≠ none → (k1.thr u).rc = (l.st.ctx u).rc)
    (hsh : k1.shared = l.kev.shared)
    (hthr : ∀ u, l.waits u ≠ none →
      (k1.thr u).ident = (l.pdata u).ident ∧ (k1.thr u).filter = (l.pdata u).filter)
    (hidx : ∀ w, l.waits t = some w → (l.st.ctx t).rc = 0 → w.fn ≠ .waitForEvents →
      (k1.thr t).idx = (l.pdata t).idx)
    (hpc : l.waits t ≠ none → ∃ st, l.st.pc = .post t (.poll st)) (hC : C k ke)
    (hs : kevStep D k ke = match (l.waits t) with
      | none => some k1
      | some w => k1.waitEnd D t w) :
    ∃ k', Follows (kevStep D) C k k' ∧ Views D C l k' := by
  cases hwt : l.waits t with
  | none =>
    rw [hwt] at hs
    have hws : Function.update l.waits t none = l.waits := by rw [← hwt, Function.update_eq_self]
    rw [hws] at hw
    have hseen : l.Seen k1 := ⟨⟨hp, hw, hrc⟩, hsh, hthr⟩
    exact ⟨k1, .one hC hs, hseen.views hI⟩
  | some w =>
    rw [hwt] at hs
    obtain ⟨st, hpc⟩ := hpc (by rw [hwt]; exact Option.some_ne_none w)
    have hwo : l.waitOf = some (t, w) := by rw [waitOf, hpc]; simp [hwt]
    refine ⟨k, .refl k, ?_⟩
    rw [Views, hwo]
    exact ⟨k1, ke, ⟨hp, hw, hrc, hsh, hthr, hidx w hwt⟩, hC, hs⟩

theorem next_refines (hR : Refines D C l k) (hC : Shared C) (hc : CalmLoop D l (.thread .next))
    (hs : l.step D (.thread .next) = some l') :
    ∃ k', Follows (kevStep D) C k k' ∧ Refines D C l' k' := by
  obtain ⟨hI, hS⟩ : Inv l.st ∧ SleepInv l.st := ⟨hR.inv.inv, hR.inv.sleep⟩
  have hinv := loopInv_step hR.inv hc hs
  obtain ⟨hmay, hpc'⟩ := phase_step hs
  have hpc : l.pc = .sift := hmay.2.1 rfl
  obtain ⟨l1, hb, hst, he⟩ := step_some hs
  obtain ⟨s', hn, hst⟩ := exec_cons hst
  cases hst
  obtain ⟨t, u, hsched, hpick, hp, hcase⟩ := next_cases hn
  have hpend : t ∈ l.st.pending := mem_pending_of_nextPick hpick
  have hres := hS.resumable (.inr hpend)
  have hent : u.enter t = some l'.st := by
    rcases hcase with h | h
    · exact h.2
    · rw [hres] at h; cases h.1
  have hwo := waitOf_none (l := l) (.inl hsched)
  have hseen := hR.views.seen hwo
  have hl1 : l1 = l := by
    have hf : l.st.finalizes .next = [] := by simp [St.finalizes, hpick, hres]
    have hi : l.st.interrupts .next = [] := rfl
    simp only [backend, if_pos hmay, hf, hi, List.foldl_nil, Option.some.injEq] at hb
    exact hb.symm
  rw [hl1] at he
  obtain ⟨hrun, hme, -, hrc, hx, hothers, hpost⟩ := enter_spec hent
  have hctx := hp.ctx_eq
  have hothers : ∀ x, x ≠ t → l'.st.ctx x = l.st.ctx x := fun x hxt => by
    rw [hothers x hxt, hctx, Function.update_of_ne hxt]
  have hm : Micro D.toDiag (.enter t false) l.st l'.st := .enter hsched hp hres hent
  obtain ⟨k1, hk1⟩ : ∃ k1, k1 = k.setThr t { k.thr t with
    expireTicks := SLEEP_UNDEFINED, queued := false } := ⟨_, rfl⟩
  have hk1t : (k1.entered t).thr t = { k.thr t with
      expireTicks := SLEEP_UNDEFINED, queued := false, state := .resumed } := by
    simp [hk1, KevSt.entered, KevSt.setThr]
  have hk1u : ∀ x, x ≠ t → (k1.entered t).thr x = k.thr x := fun x hxt => by
    simp [hk1, KevSt.entered, KevSt.setThr, hxt]
  have hstate : (k1.thr t).state.resumable := by
    rw [hk1, setThr_self, hseen.agrees.pictures.state, seen, if_neg (by simp [hsched, Pc.runs])]
    exact hres
  have hstep : kevStep D k (.resume t) = match (l'.waits t) with
      | none => some (k1.entered t)
      | some w => (k1.entered t).waitEnd D t w := by
    have htop : k.atTop ∧ (k.thr t).queued :=
      ⟨⟨hseen.agrees.pictures.me.trans (by rw [hsched]; rfl),
        (congrArg KevSt.batch hseen.shared).trans (hR.batch (by rw [hpc]; simp))⟩,
        hseen.agrees.pictures.queued t (.inr hpend)⟩
    have hw : (k1.thr t).wait = l'.waits t := by
      rw [hk1, setThr_self, he]
      exact hseen.agrees.pictures.wait t
    rw [kevStep, if_pos htop, KevSt.siftResume, ← hk1, KevSt.pollerResume_eq hstate, hw]
  have hws : l'.waits = l.waits := by rw [he]
  have hpd : l'.pdata = l.pdata := by rw [he]
  have hpic := pictures_enter k1 hS hinv.sleep (show Act.calm l.st (.enter t false) from trivial) hm
    hseen.agrees.pictures (resumable_ne hres).1 (fun x hxt => by rw [hk1]; exact setThr_ne hxt)
    (by rw [hk1, setThr_self]) (by rw [hk1, setThr_self]) (by rw [hx, hctx, hk1]; simp [KevSt.setThr])
  have hwaits := hseen.agrees.waits.switched (t := t) hothers (by
    rw [(enter_spec hent).2.2.1]; rfl)
  suffices h : ∃ k', Follows (kevStep D) C k k' ∧ Views D C l' k' from h.imp fun k' h =>
    ⟨h.1, hinv, by rw [hme, hrun], fun _ => by rw [he]; exact hR.batch (by rw [hpc]; simp),
      by rw [he]; exact hR.max, h.2⟩
  refine Returning.views hinv.inv (by rw [hws]; exact hpic) (by rw [hws]; exact hwaits)
    (fun x hxw => ?_) ?_ (fun x hxw => ?_) (fun w hw h0 hfn => ?_) (fun hw => ?_)
    (hC.silent k (.resume t) rfl) hstep
  · rw [hws] at hxw
    by_cases hxt : x = t
    · subst hxt
      rw [hk1t, hrc, hctx, Function.update_self]
      exact hseen.agrees.rc x hxw
    · rw [hk1u x hxt, hothers x hxt]
      exact hseen.agrees.rc x hxw
  · rw [hk1, he]; exact hseen.shared
  · rw [hws] at hxw
    rw [hpd]
    by_cases hxt : x = t
    · subst hxt; rw [hk1t]; exact hseen.thr x hxw
    · rw [hk1u x hxt]; exact hseen.thr x hxw
  · -- whoever the sift resumes from a wait was interrupted, or its events were deferred
    rw [hws] at hw
    rcases (hseen.agrees.waits.sound t w hw).2 with h | ⟨-, h⟩ | ⟨-, h⟩
    · exact absurd hpend (hS.polling (by rw [h]; cases w.fn <;> rfl)).2
    · exact absurd h hfn
    · rw [hrc, hctx, Function.update_self] at h0
      exact absurd h0 h
  · rw [hws] at hw
    obtain ⟨w, hw⟩ := Option.ne_none_iff_exists'.1 hw
    have huc := (hseen.agrees.waits.sound t w hw).1
    have hut : (u.ctx t).uc = .poll w.fn.state := by rw [hctx, Function.update_self]; exact huc
    exact ⟨w.fn.state, by rw [← hut]; exact hpost (by rw [hut]; simp)⟩

/-! ## The entries of a batch -/

/-- The loop has taken an entry off the batch. -/
def taken (l : Loop) (kev : Kevent) (rest : List (Nat × Kevent)) : Loop :=
  let l1 := { l with batch := rest }
  if kev.error then l1 else l1.keep (l1.kev.discardEvent kev.pair kev.udata)

/-- What the entry of `kev` leaves in `pdata` of its thread. -/
def handed (l : Loop) (i : Nat) (kev : Kevent) : KevPdata → Option KevPdata := fun p =>
  if (l.st.ctx kev.udata).state = .otherPoller then
    (KevSt.waitEvent kev.pair.filter).map fun bit =>
      { p with idx := none, filter := p.filter ||| bit }
  else some { p with idx := some i }

theorem taken_frame (l : Loop) (kev : Kevent) (rest : List (Nat × Kevent)) :
    (l.taken kev rest).pdata = l.pdata ∧ (l.taken kev rest).waits = l.waits ∧
      (l.taken kev rest).eventMax = l.eventMax ∧
      (l.taken kev rest).kev.shared = l.kev.shared.taken kev rest := by
  unfold taken KevSt.taken
  simp only
  split <;> exact ⟨rfl, rfl, rfl, rfl⟩

theorem entry_eq {i : Nat} {kev : Kevent} {rest : List (Nat × Kevent)}
    (hb : l.batch = (i, kev) :: rest) (hid : kev.pair.ident ≠ -1) :
    l.entry = (l.handed i kev (l.pdata kev.udata)).map ((l.taken kev rest).setPdata kev.udata) := by
  rw [← (taken_frame l kev rest).1]
  unfold entry handed
  rw [hb]
  dsimp only
  rw [if_neg hid]
  split
  · rw [Option.map_map]; rfl
  · rfl

theorem entry_handed (h : l.entry = some l1) : ∃ i kev rest p, l.batch = (i, kev) :: rest ∧
    kev.pair.ident ≠ -1 ∧ l.handed i kev (l.pdata kev.udata) = some p ∧
    l1 = (l.taken kev rest).setPdata kev.udata p := by
  cases hb : l.batch with
  | nil => rw [entry, hb] at h; cases h
  | cons x rest =>
    obtain ⟨i, kev⟩ := x
    by_cases hid : kev.pair.ident = -1
    · rw [entry, hb] at h
      simp [hid] at h
    · rw [entry_eq hb hid] at h
      obtain ⟨p, hp, rfl⟩ := Option.map_eq_some_iff.1 h
      exact ⟨i, kev, rest, p, rfl, hid, hp, rfl⟩

/-- The entry of a thread in `mnthr_wait_for_events`: it is set for resume. -/
theorem deferred_refines {i : Nat} {kev : Kevent} {rest : List (Nat × Kevent)} {p : KevPdata}
    {rc : Int} (h : l.Seen k) (hI : Inv l.st) (hS : SleepInv l.st)
    (hop : (l.st.ctx kev.udata).state = .otherPoller)
    (hp : l.handed i kev (l.pdata kev.udata) = some p)
    (hst : l.st.step D.toDiag (.pollFast kev.udata) = some l'.st)
    (he : l' = { (l.taken kev rest).setPdata kev.udata p with st := l'.st }) :
    ∃ k', (k.taken kev rest).deliver D i kev rc = some k' ∧ l'.Seen k' := by
  obtain ⟨t, ht⟩ : ∃ t, t = kev.udata := ⟨_, rfl⟩
  simp only [handed, if_pos hop] at hp
  rw [← ht] at hop hp hst he
  obtain ⟨bit, hbit, rfl⟩ := Option.map_eq_some_iff.1 hp
  have hd : (l.st.ctx t).state ≠ .dormant := by rw [hop]; simp
  obtain ⟨hsched, hticks, heq⟩ : l.st.pc = .sched ∧ ¬ (l.st.ctx t).expireTicks < SLEEP_RESUME_NOW ∧
      l'.st = { l.st.setCtx t { l.st.ctx t with
          state := .setResume, expireTicks := SLEEP_RESUME_NOW } with
        sleepq := l.st.sleepq.insertOnce SLEEP_RESUME_NOW t } := by
    simp only [St.step, St.pollFast, St.setResumeFast] at hst
    split at hst
    · rename_i hg
      split at hst
      · cases hst
      · split at hst
        · exact absurd ‹_› (hI.live t hd)
        · split at hst
          · cases hst
          · exact ⟨hg.1, ‹_›, (Option.some.inj hst).symm⟩
    · cases hst
  have hm : Micro D.toDiag (.resumeFast t) l.st l'.st := by
    rw [heq]; exact .resumeFast hsched (hI.live t hd) hop
  obtain ⟨w, hw⟩ := Option.ne_none_iff_exists'.1 (h.agrees.waits.complete t (by rw [hop]; rfl))
  have hwn : l.waits t ≠ none := by rw [hw]; exact Option.some_ne_none w
  have hfn : w.fn = .waitForEvents := by
    rcases (h.agrees.waits.sound t w hw).2 with h1 | ⟨h1, -⟩ | ⟨h1, -⟩ <;> rw [hop] at h1
    · cases hw : w.fn <;> rw [hw] at h1 <;> first | rfl | cases h1
    · cases h1
    · cases h1
  have hrun : l.st.pc.runs ≠ some t := by rw [hsched]; simp [Pc.runs]
  have hx : (k.thr t).live = true ∧ (k.thr t).state = .otherPoller ∧
      (k.thr t).expireTicks = (l.st.ctx t).expireTicks := by
    refine ⟨(h.agrees.pictures.live t).2 hd, ?_, h.agrees.pictures.ticks t hd (.inl trivial)⟩
    rw [h.agrees.pictures.state, seen, if_neg hrun, hop]
  obtain ⟨hthr, hme⟩ := KevSt.taken_spec k kev rest
  obtain ⟨k1, hk1⟩ : ∃ k1, k1 = (k.taken kev rest).setThr t { k.thr t with
    idx := none, filter := (k.thr t).filter ||| bit, state := .setResume,
    expireTicks := SLEEP_RESUME_NOW, queued := true } := ⟨_, rfl⟩
  have hk1u : ∀ u, u ≠ t → k1.thr u = k.thr u := fun u hu => by
    rw [hk1, setThr_ne hu, hthr]
  have hdel : (k.taken kev rest).deliver D i kev rc = some k1 := by
    unfold KevSt.deliver
    simp only [← ht, hthr, hx.2.1, if_true, hbit, Option.bind_some]
    unfold KevSt.setResumeFast KevSt.setResume
    rw [setThr_self, if_pos hx.1, hx.2.2, if_neg (fun hc => hticks hc.2), if_pos hx.1, hk1]
    simp [KevSt.setThr]
  obtain ⟨hpd, hws, -, hsh⟩ := taken_frame l kev rest
  have hws' : l'.waits = l.waits := by rw [he]; exact hws
  have hctx : ∀ u, u ≠ t → l'.st.ctx u = l.st.ctx u := fun u hu => by rw [heq]; simp [setCtx, hu]
  have hct : l'.st.ctx t = { l.st.ctx t with
      state := .setResume, expireTicks := SLEEP_RESUME_NOW } := by rw [heq]; simp [setCtx]
  have hpc : l'.st.pc = l.st.pc := by rw [heq]; rfl
  refine ⟨k1, hdel, ⟨?_, ⟨fun u w' hw' => ?_, fun u hp => ?_⟩, fun u hu => ?_⟩, ?_, fun u hu => ?_⟩
  · rw [hws']
    refine h.agrees.pictures.update hS (show Act.calm l.st (.resumeFast t) from trivial) hm rfl
      (fun _ _ _ => .inl trivial) hk1u ?_ ?_ ?_ ?_ ?_ fun _ => ?_
    · rw [hk1, hpc]; exact hme.trans h.agrees.pictures.me
    · rw [hk1, hct]; simp [hx.1]
    · rw [hk1, seen, hpc, if_neg hrun, hct, setThr_self]
    · rw [hk1, setThr_self]; exact h.agrees.pictures.wait t
    · rw [hk1, hct, setThr_self]; exact fun _ => rfl
    · rw [hk1, setThr_self]
  · rw [hws'] at hw'
    have hwi := h.agrees.waits.sound u w' hw'
    by_cases hut : u = t
    · subst hut
      cases hw.symm.trans hw'
      rw [waitsIn, hct]
      exact ⟨hwi.1, .inr (.inl ⟨rfl, hfn⟩)⟩
    · rwa [waitsIn, hctx u hut]
  · rw [hws']
    by_cases hut : u = t
    · subst hut; exact hwn
    · rw [hctx u hut] at hp; exact h.agrees.waits.complete u hp
  · rw [hws'] at hu
    by_cases hut : u = t
    · subst hut
      rw [hk1, hct, setThr_self]
      exact h.agrees.rc u hu
    · rw [hk1u u hut, hctx u hut]; exact h.agrees.rc u hu
  · rw [hk1, he]
    show (k.taken kev rest).shared = (l.taken kev rest).kev.shared
    rw [hsh, KevSt.taken_shared, h.shared]
  · rw [hws'] at hu
    obtain ⟨h1, h2⟩ := h.thr u hu
    by_cases hut : u = t
    · subst hut
      rw [hk1, he, setThr_self]
      simp [setPdata, h1, h2]
    · rw [hk1u u hut, he]
      simpa [setPdata, hut, hpd] using h.thr u hu

/-- The entry of a thread that has ended since. -/
theorem orphan_refines {i : Nat} {kev : Kevent} {rest : List (Nat × Kevent)} {rc : Int}
    (h : l.Seen k) (hI : Inv l.st) (hsched : l.st.pc = .sched)
    (hop : (l.st.ctx kev.udata).state ≠ .otherPoller) (hf : (l.st.ctx kev.udata).f = none)
    (hst : l'.st = l.st) (he : l' = { (l.taken kev rest).setPdata kev.udata
      { l.pdata kev.udata with idx := some i } with st := l'.st }) :
    ∃ k', (k.taken kev rest).deliver D i kev rc = some k' ∧ l'.Seen k' := by
  have hd : (l.st.ctx kev.udata).state = .dormant := by
    by_contra hd
    exact hI.live _ hd hf
  have hn : l.waits kev.udata = none := by
    by_contra hn
    exact (h.agrees.waits.away hI hn).1 hd
  have hl : (k.thr kev.udata).live ≠ true := fun hl => (h.agrees.pictures.live _).1 hl hd
  have hkst : (k.thr kev.udata).state ≠ .otherPoller := by
    rw [h.agrees.pictures.state, seen, if_neg (by simp [hsched, Pc.runs])]
    exact hop
  obtain ⟨hpd, hws, -, hsh⟩ := taken_frame l kev rest
  obtain ⟨hthr, hme⟩ := KevSt.taken_spec k kev rest
  obtain ⟨x, hx⟩ : ∃ x, x = { k.thr kev.udata with idx := some i } := ⟨_, rfl⟩
  have hthr' : ((k.taken kev rest).setThr kev.udata x).thr = (k.setThr kev.udata x).thr := by
    simp [KevSt.setThr, hthr]
  have h1 := h.setThr (x := x) hn (by rw [hx]) (by rw [hx]) (by rw [hx]) (by rw [hx]) (by rw [hx])
  have hws' : l'.waits = l.waits := by rw [he]; exact hws
  refine ⟨(k.taken kev rest).setThr kev.udata x, ?_, ?_, ?_, fun u hu => ?_⟩
  · unfold KevSt.deliver
    dsimp only
    rw [hthr, if_neg hkst, if_neg hl, hx]
  · rw [hws', hst]
    exact h1.agrees.congr hthr' hme
  · rw [he]
    show (k.taken kev rest).shared = (l.taken kev rest).kev.shared
    rw [hsh, KevSt.taken_shared, h.shared]
  · rw [hws'] at hu
    have hut : u ≠ kev.udata := fun hut => hu (hut ▸ hn)
    rw [hthr', he]
    simpa [setPdata, hut, hpd] using h1.thr u hu

/-- The entry of any other thread: it is switched to. -/
theorem resumed_refines {i : Nat} {kev : Kevent} {rest : List (Nat × Kevent)} {rc : Int}
    (h : l.Seen k) (hI : Inv l.st) (hS : SleepInv l.st) (hI' : LoopInv l')
    (hop : (l.st.ctx kev.udata).state ≠ .otherPoller)
    (hpoll : (l.st.ctx kev.udata).state.polling) (hCe : C k .entry)
    (hk : kevStep D k .entry = (k.taken kev rest).deliver D i kev rc)
    (hst : l.st.step D.toDiag (.pollResume kev.udata (some rc)) = some l'.st)
    (he : l' = { (l.taken kev rest).setPdata kev.udata
      { l.pdata kev.udata with idx := some i } with st := l'.st }) :
    (∃ k', Follows (kevStep D) C k k' ∧ Views D C l' k') ∧ l'.st.me = l'.st.pc.runs := by
  obtain ⟨t, ht⟩ : ∃ t, t = kev.udata := ⟨_, rfl⟩
  rw [← ht] at hop hpoll hst he
  have hres := polling_resumable hpoll
  have hd := (resumable_ne hres).1
  obtain ⟨hsched, hmem, hent⟩ : l.st.pc = .sched ∧ t ∈ l.st.ctxes ∧
      (l.st.setCtx t { l.st.ctx t with rc := rc }).enter t = some l'.st := by
    simp only [St.step, St.pollResume, if_neg (hI.live t hd), St.pollerResume] at hst
    split at hst
    · rename_i hg
      rw [if_pos (by simpa [setCtx] using hres)] at hst
      exact ⟨hg.1, hg.2, hst⟩
    · cases hst
  obtain ⟨s0, hs0⟩ : ∃ s0, s0 = l.st.setCtx t { l.st.ctx t with rc := rc } := ⟨_, rfl⟩
  rw [← hs0] at hent
  obtain ⟨hrun, hme, hst', hrc, hx, hothers, hpost⟩ := enter_spec hent
  have hothers : ∀ u, u ≠ t → l'.st.ctx u = l.st.ctx u := fun u hut => by
    rw [hothers u hut, hs0]; simp [setCtx, hut]
  have hrun0 : l.st.pc.runs ≠ some t := by rw [hsched]; simp [Pc.runs]
  -- the return code, then the switch
  have hm0 : Micro D.toDiag (.rc t rc) l.st s0 := by rw [hs0]; exact .rc t rc (.inr (.inl hd))
  have hI0 := inv_micro hI hm0
  have hS0 := (sinv_micro (a := .rc t rc) hI hS trivial hm0).1
  have hp0 := pictures_unseen (a := .rc t rc) hI hS trivial trivial hm0 h.agrees.pictures
  have hct : s0.ctx t = { l.st.ctx t with rc := rc } := by rw [hs0]; simp [setCtx]
  have hm : Micro D.toDiag (.enter t true) s0 l'.st := by
    refine .enter (by rw [hs0]; exact hsched) (.poll (by rw [hs0]; exact hmem) ?_) ?_ hent
    · rw [hct]; exact hI.live t hd
    · rw [hct]; exact hres
  obtain ⟨hthr, -⟩ := KevSt.taken_spec k kev rest
  obtain ⟨k1, hk1⟩ : ∃ k1, k1 = (k.taken kev rest).setThr t { k.thr t with
    idx := some i, rc := rc } := ⟨_, rfl⟩
  have hk1t : (k1.entered t).thr t = { k.thr t with
      idx := some i, rc := rc, state := .resumed } := by
    simp [hk1, KevSt.entered, KevSt.setThr]
  have hk1u : ∀ u, u ≠ t → (k1.entered t).thr u = k.thr u := fun u hut => by
    simp [hk1, KevSt.entered, KevSt.setThr, hut, hthr]
  have hkst : (k.thr t).state = (l.st.ctx t).state := by
    rw [h.agrees.pictures.state, seen, if_neg hrun0]
  obtain ⟨hpd, hws, -, hsh⟩ := taken_frame l kev rest
  have hws' : l'.waits = l.waits := by rw [he]; exact hws
  have hstep : kevStep D k .entry = match (l'.waits t) with
      | none => some (k1.entered t)
      | some w => (k1.entered t).waitEnd D t w := by
    have hwk : (k1.thr t).wait = l'.waits t := by
      rw [hk1, setThr_self, hws']
      exact h.agrees.pictures.wait t
    have hk1s : (k1.thr t).state.resumable := by rw [hk1, setThr_self, hkst]; exact hres
    rw [hk, ← hwk, ← KevSt.pollerResume_eq hk1s]
    unfold KevSt.deliver
    rw [← ht]
    dsimp only
    rw [hthr, if_neg (by rw [hkst]; exact hop), if_pos ((h.agrees.pictures.live t).2 hd), hk1]
  have hpic := pictures_enter k1 hS0 hI'.sleep (show Act.calm s0 (.enter t true) by
      show (s0.ctx t).state.polling = true
      rw [hct]; exact hpoll) hm hp0
    (by rw [hct]; exact hd) (fun u hut => by rw [hk1, setThr_ne hut, hthr])
    (by rw [hk1, setThr_self]) (by rw [hk1, setThr_self])
    (by rw [hx, hct, hk1, setThr_self]; exact h.agrees.pictures.ticks t hd (.inl trivial))
  have hwaits := h.agrees.waits.switched (t := t) hothers (by rw [hst']; rfl)
  refine ⟨Returning.views hI'.inv (by rw [hws']; exact hpic) (by rw [hws']; exact hwaits)
    (fun u hu => ?_) ?_ (fun u hu => ?_) (fun w hw h0 hfn => ?_) (fun hw => ?_) hCe hstep,
    by rw [hme, hrun]⟩
  · rw [hws'] at hu
    by_cases hut : u = t
    · subst hut; rw [hk1t, hrc, hct]
    · rw [hk1u u hut, hothers u hut]; exact h.agrees.rc u hu
  · rw [hk1, he]
    show (k.taken kev rest).shared = (l.taken kev rest).kev.shared
    rw [hsh, KevSt.taken_shared, h.shared]
  · rw [hws'] at hu
    by_cases hut : u = t
    · subst hut
      rw [hk1t, he]
      simpa [setPdata] using h.thr u hu
    · rw [hk1u u hut, he]
      simpa [setPdata, hut, hpd] using h.thr u hu
  · rw [hk1t, he]
    simp [setPdata]
  · rw [hws'] at hw
    obtain ⟨w, hw⟩ := Option.ne_none_iff_exists'.1 hw
    have hut : (s0.ctx t).uc = .poll w.fn.state := by
      rw [hct]; exact (h.agrees.waits.sound t w hw).1
    exact ⟨w.fn.state, by rw [← hut]; exact hpost (by rw [hut]; simp)⟩

theorem entry_refines (hR : Refines D C l k) (hC : Shared C) (hc : CalmLoop D l .entry)
    (ht : ∀ ke ∈ l.tells .entry, C l.kev ke) (hs : l.step D .entry = some l') :
    ∃ k', Follows (kevStep D) C k k' ∧ Refines D C l' k' := by
  obtain ⟨hI, hS⟩ : Inv l.st ∧ SleepInv l.st := ⟨hR.inv.inv, hR.inv.sleep⟩
  have hinv := loopInv_step hR.inv hc hs
  obtain ⟨hpc, hsched, hpc'⟩ := phase_step hs
  have hseen := hR.views.seen (waitOf_none (.inl hsched))
  have hCe := hC.seen l k .entry hI hseen (ht _ (List.mem_singleton.2 rfl))
  obtain ⟨l1, hb, hst, he⟩ := step_some hs
  simp only [backend, if_pos (And.intro hpc hsched)] at hb
  obtain ⟨l2, hl2, rfl⟩ := Option.map_eq_some_iff.1 hb
  obtain ⟨i, kev, rest, p, hbatch, hid, hp, rfl⟩ := entry_handed hl2
  have hk : kevStep D k .entry = (k.taken kev rest).deliver D i kev
      (if kev.error then D.CO_RC_POLLER else 0) := by
    have hme : k.me = none := hseen.agrees.pictures.me.trans (by rw [hsched]; rfl)
    have hkb : k.batch = (i, kev) :: rest := (congrArg KevSt.batch hseen.shared).trans hbatch
    rw [kevStep, if_pos hme, KevSt.entry_taken hkb hid]
  have hcur : l.current D = some (i, kev, if kev.error then D.CO_RC_POLLER else 0) := by
    simp [current, hbatch]
  obtain ⟨hpd, hws, hmax, hsh⟩ := taken_frame l kev rest
  have finish : ∀ {p}, l' = { (l.taken kev rest).setPdata kev.udata p with st := l'.st } →
      0 ≤ l'.eventMax := fun he => by
    rw [he]
    show 0 ≤ (l.taken kev rest).eventMax
    rw [hmax]
    exact hR.max
  by_cases hop : (l.st.ctx kev.udata).state = .otherPoller
  · have hparts : l.parts D .entry = [.pollFast kev.udata] := by simp [parts, hcur, hop]
    rw [hparts] at hst he
    obtain ⟨s', hs', hst⟩ := exec_cons hst
    cases hst
    obtain ⟨k', hdel, hseen'⟩ := deferred_refines hseen hI hS hop hp hs' he
    exact ⟨k', .one hCe (hk.trans hdel), hseen'.refines hinv (caller_step hI hs' rfl hR.caller)
      (fun hn => absurd hpc' hn) (finish he)⟩
  · obtain ⟨rc, hrc⟩ : ∃ rc, rc = if kev.error then D.CO_RC_POLLER else (0 : Int) := ⟨_, rfl⟩
    rw [← hrc] at hcur hk
    have hparts : l.parts D .entry = [.pollResume kev.udata (some rc)] := by
      simp [parts, hcur, hop]
    rw [CalmLoop, hparts] at hc
    rw [hparts] at hst he
    obtain ⟨s', hs', hst⟩ := exec_cons hst
    cases hst
    rw [handed, if_neg hop] at hp
    cases hp
    by_cases hf : (l.st.ctx kev.udata).f = none
    · have hst : l'.st = l.st := by
        simp only [St.step, St.pollResume, if_pos hf] at hs'
        split at hs'
        · exact (Option.some.inj hs').symm
        · cases hs'
      have he : l' = { (l.taken kev rest).setPdata kev.udata
          { l.pdata kev.udata with idx := some i } with st := l'.st } := by
        simpa [St.finalizes, hf] using he
      obtain ⟨k', hdel, hseen'⟩ := orphan_refines hseen hI hsched hop hf hst he
      exact ⟨k', .one hCe (hk.trans hdel), hseen'.refines hinv (caller_step hI hs' rfl hR.caller)
        (fun hn => absurd hpc' hn) (finish he)⟩
    · have hpoll := hc.1.2.2 kev.udata (by simp [polled, hf])
      have he : l' = { (l.taken kev rest).setPdata kev.udata
          { l.pdata kev.udata with idx := some i } with st := l'.st } := by
        simpa [St.finalizes, hf, polling_resumable hpoll] using he
      obtain ⟨⟨k', hfo, hv⟩, hcal⟩ :=
        resumed_refines hseen hI hS hinv hop hpoll hCe hk hs' he
      exact ⟨k', hfo, hinv, hcal, fun hn => absurd hpc' hn, finish he, hv⟩

/-! ## The end of a wait -/

theorem return_refines {b : Bool} (hR : Refines D C l k) (hc : CalmLoop D l (.thread (.cont b)))
    (hwo : l.waitOf = some (t, w)) (hs : l.step D (.thread (.cont b)) = some l') :
    ∃ k', Follows (kevStep D) C k k' ∧ Refines D C l' k' := by
  have hinv := loopInv_step hR.inv hc hs
  obtain ⟨hmay, hpc'⟩ := phase_step hs
  obtain ⟨k1, ke, hret, hCke, hstep⟩ : ∃ k1 ke, l.Returning t w k1 ∧ C k ke ∧
      kevStep D k ke = k1.waitEnd D t w := by
    have := hR.views
    rwa [Views, hwo] at this
  obtain ⟨st, hpc, hw⟩ : ∃ st, l.st.pc = .post t (.poll st) ∧ l.waits t = some w := by
    unfold waitOf at hwo
    split at hwo
    · rename_i u st hpc
      obtain ⟨w', hw, heq⟩ := Option.map_eq_some_iff.1 hwo
      cases heq
      exact ⟨st, hpc, hw⟩
    · cases hwo
  have hwn : l.waits t ≠ none := by rw [hw]; exact Option.some_ne_none w
  obtain ⟨l1, hb, hst, he⟩ := step_some hs
  have hretd : Returned l.st l'.st t := by
    simp only [parts, hwo] at hst
    exact poll_returned hR.inv.inv hpc hst
  simp only [backend, if_pos hmay, hwo] at hb
  obtain ⟨kl, hkl, rfl⟩ := Option.map_eq_some_iff.1 hb
  obtain ⟨x, x', r, hx, rfl, hlive, hstate, hticks, hqueued⟩ :=
    KevSt.waitEnd_congr l.kev hret.shared (hret.rc t hwn) (hret.thr t hwn).1 (hret.thr t hwn).2
      hret.idx hkl
  have hself : (k1.waitReturn t x r).thr t = { x with wait := none } := by
    simp [KevSt.waitReturn, KevSt.setThr]
  have hother : ∀ u, u ≠ t → (k1.waitReturn t x r).thr u = k1.thr u := fun u hu => by
    simp [KevSt.waitReturn, KevSt.setThr, hu]
  have hws : l'.waits = Function.update l.waits t none := by
    rw [he]
    funext u
    by_cases hut : u = t
    · subst hut; simp [keep, KevSt.waitReturn, KevSt.setThr]
    · simp [keep, KevSt.waitReturn, KevSt.setThr, hut, kev, thr]
  have hpd : ∀ u, u ≠ t → l'.pdata u = l.pdata u := fun u hut => by
    rw [he]
    simp [keep, KevSt.waitReturn, KevSt.setThr, hut, kev, thr]
  have hrun : l.st.pc.runs = some t := by rw [hpc]; rfl
  have hrun' : l'.st.pc.runs = some t := by rw [hretd.pc]; rfl
  have hseen' : l'.Seen (k1.waitReturn t x r) := by
    refine ⟨⟨⟨?_, fun u => ?_, fun u => ?_, fun u => ?_, fun u hd _ => ?_, fun u hf => ?_⟩,
      ⟨fun u w' hw' => ?_, fun u hp => ?_⟩, fun u hu => ?_⟩, ?_, fun u hu => ?_⟩
    · rw [hrun', ← hrun]; exact hret.pictures.me
    · rw [hretd.ctx u, ← hret.pictures.live u]
      by_cases hut : u = t
      · subst hut; rw [hself, hlive]
      · rw [hother u hut]
    · have hsn : l'.st.seen u = l.st.seen u := by rw [seen, seen, hrun, hrun', hretd.ctx u]
      rw [hsn, ← hret.pictures.state u]
      by_cases hut : u = t
      · subst hut; rw [hself]; exact hstate
      · rw [hother u hut]
    · rw [hws]
      by_cases hut : u = t
      · subst hut; rw [hself]; simp
      · rw [hother u hut, Function.update_of_ne hut]; exact hret.pictures.wait u
    · have hx : (l'.st.ctx u).expireTicks = (l.st.ctx u).expireTicks := by rw [hretd.ctx u]
      rw [hretd.ctx u] at hd
      rw [hx, ← hret.pictures.ticks u hd (.inl trivial)]
      by_cases hut : u = t
      · subst hut; rw [hself]; exact hticks
      · rw [hother u hut]
    · have := hret.pictures.queued u (hretd.filed u hf)
      by_cases hut : u = t
      · subst hut; rw [hself]; exact hqueued.trans this
      · rw [hother u hut]; exact this
    · have hut : u ≠ t := fun hut => by
        rw [hws, hut, Function.update_self] at hw'
        cases hw'
      rw [hws] at hw'
      have := hret.waits.sound u w' hw'
      rwa [waitsIn, hretd.other u hut]
    · rw [hws]
      rw [hretd.ctx u] at hp
      exact hret.waits.complete u hp
    · rw [hws] at hu
      have hut : u ≠ t := fun hut => hu (by rw [hut, Function.update_self])
      rw [Function.update_of_ne hut] at hu
      rw [hother u hut, hretd.other u hut]
      exact hret.rc u hu
    · rw [he]
      show { k1.shared with ret := some r } = { l.kev.shared with ret := some r }
      rw [hret.shared]
    · rw [hws] at hu
      have hut : u ≠ t := fun hut => hu (by rw [hut, Function.update_self])
      rw [Function.update_of_ne hut] at hu
      rw [hother u hut, hpd u hut]
      exact hret.thr u hu
  exact ⟨_, .one hCke (hstep.trans hx), hseen'.refines hinv
    (by rw [hretd.me, hrun', hR.inv.inv.me t hrun])
    (fun hp => by rw [he]; exact hR.batch (hpc' ▸ hp)) (by rw [he]; exact hR.max)⟩

end
end Loop
end Mnthr

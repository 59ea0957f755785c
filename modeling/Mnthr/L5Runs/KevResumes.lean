import Mnthr.L2Sched.Machine
import Mnthr.L4Inv.Kevent

/-!
# Whom the batch loop resumes

An entry carries a bare context: the batch loop does not compare it with what
the thread waits for. `kevent_matches`: the thread of every entry waits for the
pair of the entry, in every run whose steps are `KevOrderly`. No deletion
fails, no addition that fails has a deletion of its pair behind it, and a
thread leaves its wait for a descriptor only when nothing else that may come
from the kqueue carries it.
-/
namespace Mnthr
open Kqueue KevSt

namespace KevSt

/-- What the kqueue may come to hold. -/
def mayHold (s : KevSt) : List (KevPair × Ptr) := Kqueue.mayHold s.kevents0 s.kq

/-- `u` is in a call that waits for `p`. -/
def WaitsOn (s : KevSt) (u : Ptr) (p : KevPair) : Prop :=
  ∃ w, (s.thr u).wait = some w ∧ p ∈ w.pairs

end KevSt

def Kevent.reg (kev : Kevent) : KevPair × Ptr := (kev.pair, kev.udata)

/-- At an entry: its thread waits for its pair. -/
def Matches (s : KevSt) : KevEvent → Prop
  | .entry => ∀ x ∈ s.batch.head?, (s.thr x.2.udata).live → s.WaitsOn x.2.udata x.2.pair
  | _ => True

def KevOrderly (s : KevSt) : KevEvent → Prop
  | .kevent refused _ => OnlyRefusals s.kevents0 refused s.kq
  | .keventError _ _ => False
  | .resume t => (s.thr t).wait ≠ none → ∀ x ∈ s.mayHold, x.2 ≠ t
  | .entry => ∀ x ∈ s.batch.head?, (s.thr x.2.udata).state ≠ .otherPoller →
      ∀ w ∈ (s.thr x.2.udata).wait, w.fn = .waitForEvents →
        (∀ y ∈ s.mayHold, y.2 = x.2.udata → y.1 = x.2.pair) ∧
        ∀ y ∈ s.batch.tail, y.2.udata = x.2.udata → y.2.pair = x.2.pair
  | _ => True

instance (s : KevSt) (e : KevEvent) : Decidable (KevOrderly s e) := by
  refine e.casesOn ?_ ?_ ?_ ?_ ?_ ?_ ?_ ?_ ?_ ?_ ?_ ?_ <;> intros <;> unfold KevOrderly <;>
    infer_instance

/-- All that the kqueue may hold, and every entry to come, belongs to a thread
that waits for it, once. -/
structure KevOwned (s : KevSt) : Prop extends KevInv s where
  table : ∀ x ∈ s.mayHold, s.WaitsOn x.2 x.1
  batch : ∀ x ∈ s.batch, s.WaitsOn x.2.udata x.2.pair
  once : s.mayHold.Nodup
  batchOnce : (s.batch.map fun x => x.2.reg).Nodup
  errorOnce : ∀ x ∈ s.batch, x.2.error → x.2.reg ∉ s.mayHold

section
variable {D : KevBuild} {s s' : KevSt} {e : KevEvent} {t u : Ptr} {w : KevWait} {p q : KevPair}

theorem kevOwned_init : KevOwned .init where
  toKevInv := kev_init
  table _ h := by cases h
  batch _ h := by cases h
  once := List.nodup_nil
  batchOnce := List.nodup_nil
  errorOnce _ h := by cases h

theorem queue_mayHold (s : KevSt) : s.mayHold = Kqueue.mayHold s.queue.kevents0 s.queue.kq := rfl

/-- All functions but one wait for a single pair. -/
theorem pairs_eq (hw : w.fn ≠ .waitForEvents) (hp : p ∈ w.pairs) (hq : q ∈ w.pairs) : p = q := by
  obtain ⟨fn, fd⟩ := w
  cases fn with
  | waitForEvents => exact absurd rfl hw
  | _ => exact (List.mem_singleton.1 hp).trans (List.mem_singleton.1 hq).symm

theorem KevOwned.not_me (hI : KevOwned s) (h : s.WaitsOn u p) : s.me ≠ some u := by
  obtain ⟨w, hw, -⟩ := h
  exact hI.toKevInv.not_me hw

/-- Nothing was added, and the threads that are still carried wait on. -/
theorem KevOwned.shrink (hI : KevOwned s) (hI' : KevInv s')
    (hm : s'.mayHold.Sublist s.mayHold) (hb : s'.batch.Sublist s.batch)
    (htable : ∀ x ∈ s'.mayHold, (s'.thr x.2).wait = (s.thr x.2).wait)
    (hbatch : ∀ x ∈ s'.batch, (s'.thr x.2.udata).wait = (s.thr x.2.udata).wait) : KevOwned s' where
  toKevInv := hI'
  table x hx := by
    obtain ⟨w, hw, hp⟩ := hI.table x (hm.subset hx)
    exact ⟨w, (htable x hx).trans hw, hp⟩
  batch x hx := by
    obtain ⟨w, hw, hp⟩ := hI.batch x (hb.subset hx)
    exact ⟨w, (hbatch x hx).trans hw, hp⟩
  once := hI.once.sublist hm
  batchOnce := hI.batchOnce.sublist (hb.map _)
  errorOnce x hx he hin := hI.errorOnce x (hb.subset hx) he (hm.subset hin)

/-- The thread of an entry leaves its wait with nothing left that carries it. -/
theorem KevOwned.alone (hI : KevOwned s) (hc : KevOrderly s .entry) {i : Nat} {kev : Kevent}
    {rest : List (Nat × Kevent)} (hb : s.batch = (i, kev) :: rest)
    (hst : (s.thr kev.udata).state ≠ .otherPoller) :
    (∀ x ∈ s.mayHold, x.2 = kev.udata → x.1 = kev.pair ∧ kev.error = false) ∧
      ∀ x ∈ rest, x.2.udata ≠ kev.udata := by
  have hmem : (i, kev) ∈ s.batch := by rw [hb]; exact List.mem_cons_self ..
  obtain ⟨w, hw, hp⟩ := hI.batch _ hmem
  -- whatever carries the thread is for the pair of the entry
  have hpair : (∀ x ∈ s.mayHold, x.2 = kev.udata → x.1 = kev.pair) ∧
      ∀ x ∈ rest, x.2.udata = kev.udata → x.2.pair = kev.pair := by
    by_cases hfn : w.fn = .waitForEvents
    · have := hc (i, kev) (by rw [hb]; rfl) hst w hw hfn
      rwa [hb, List.tail_cons] at this
    · constructor
      · intro x hx hxu
        obtain ⟨w', hw', hp'⟩ := hI.table x hx
        rw [hxu, hw] at hw'
        cases hw'
        exact pairs_eq hfn hp' hp
      · intro x hx hxu
        obtain ⟨w', hw', hp'⟩ := hI.batch x (by rw [hb]; exact List.mem_cons_of_mem _ hx)
        rw [hxu, hw] at hw'
        cases hw'
        exact pairs_eq hfn hp' hp
  constructor
  · intro x hx hxu
    have hx1 := hpair.1 x hx hxu
    refine ⟨hx1, Bool.eq_false_iff.2 fun he => hI.errorOnce _ hmem he ?_⟩
    have : x = kev.reg := Prod.ext hx1 hxu
    rwa [this] at hx
  · intro x hx hxu
    have hnd := hI.batchOnce
    rw [hb, List.map_cons, List.nodup_cons] at hnd
    exact hnd.1 (List.mem_map.2 ⟨x, hx, Prod.ext (hpair.2 x hx hxu) hxu⟩)

theorem ThrStep.waits (h : ThrStep D s e s' u) (hme : s.me ≠ some u)
    (hsw : ∀ rc, ¬ Switches D s u rc e) : (s'.thr u).wait = (s.thr u).wait := by
  cases h with
  | kept h => exact h.wait
  | began w he hme' hw => exact absurd hme' hme
  | returned rc he hw hret => exact absurd he (hsw rc)

/-- What the queue owes to the threads of `OnlyRefusals` changes. -/
theorem owned_kevent {refused : List Bool} {fired : List (KevPair × Ptr × KevData)}
    (hI : KevOwned s) (hc : OnlyRefusals s.kevents0 refused s.kq)
    (hs : kevStep D s (.kevent refused fired) = some s') : KevOwned s' := by
  obtain ⟨hI', hthr⟩ := kev_step hI.toKevInv hs
  have hq := kevStep_queue hs
  have hm' : s'.mayHold = (applyChanges s.kevents0 refused s.kq).1 := by
    rw [queue_mayHold, hq]
    rfl
  have hb' : s'.batch = (s.results refused fired).zipIdx.map Prod.swap :=
    congrArg KevQueue.batch hq
  have hfired : (fired.map Prod.fst).Nodup ∧
      ∀ f ∈ fired, (f.1, f.2.1) ∈ (applyChanges s.kevents0 refused s.kq).1 := by
    simp only [kevStep, KevSt.kevent] at hs
    split at hs
    · split at hs
      · rename_i h
        exact ⟨h.2.2.1, h.2.2.2⟩
      · cases hs
    · cases hs
  -- the table and the errors, each once, were pending
  obtain ⟨l, hperm, hsub⟩ := apply_mayHold hc
  have hnd := hperm.nodup_iff.1 (hI.once.sublist hsub)
  have hold : ∀ x ∈ (applyChanges s.kevents0 refused s.kq).1 ++
      (applyChanges s.kevents0 refused s.kq).2.map Change.pair, x ∈ s.mayHold := fun x hx =>
    hsub.subset (hperm.mem_iff.2 hx)
  have hregs : s'.batch.map (fun x => x.2.reg) =
      (applyChanges s.kevents0 refused s.kq).2.map Change.pair ++
        fired.map fun f => (f.1, f.2.1) := by
    rw [hb', List.map_map, results]
    have : ∀ l : List Kevent, l.zipIdx.map ((fun x : Nat × Kevent => x.2.reg) ∘ Prod.swap) =
        l.map Kevent.reg := fun l => by
      rw [← List.map_map (g := fun x : Nat × Kevent => x.2.reg)]
      conv_rhs => rw [← List.zipIdx_map_fst 0 l, List.map_map]
      simp
    rw [this, List.map_append, List.map_map, List.map_map]
    rfl
  have hwait : ∀ x ∈ s.mayHold, s'.WaitsOn x.2 x.1 := by
    intro x hx
    obtain ⟨w, hw, hp⟩ := hI.table x hx
    exact ⟨w, ((hthr x.2).waits (hI.not_me ⟨w, hw, hp⟩) fun _ h => h).trans hw, hp⟩
  have hbatch : ∀ x ∈ s'.batch, x.2.reg ∈ s.mayHold := by
    intro x hx
    have hr : x.2.reg ∈ s'.batch.map fun x => x.2.reg := List.mem_map.2 ⟨x, hx, rfl⟩
    rw [hregs] at hr
    refine hold _ ?_
    rcases List.mem_append.1 hr with h | h
    · exact List.mem_append_right _ h
    · obtain ⟨f, hf, hfx⟩ := List.mem_map.1 h
      rw [← hfx]
      exact List.mem_append_left _ (hfired.2 f hf)
  refine ⟨hI', fun x hx => ?_, fun x hx => hwait _ (hbatch x hx), ?_, ?_, ?_⟩
  · rw [hm'] at hx
    exact hwait x (hold x (List.mem_append_left _ hx))
  · rw [hm']
    exact (List.nodup_append.1 hnd).1
  · rw [hregs]
    refine List.nodup_append.2 ⟨(List.nodup_append.1 hnd).2.1, ?_, ?_⟩
    · refine List.Nodup.of_map Prod.fst ?_
      rw [List.map_map]
      exact hfired.1
    · intro x hx y hy
      obtain ⟨f, hf, rfl⟩ := List.mem_map.1 hy
      exact ((List.nodup_append.1 hnd).2.2 _ (hfired.2 f hf) _ hx).symm
  · intro x hx he hin
    rw [hb'] at hx
    obtain ⟨y, hy, rfl⟩ := List.mem_map.1 hx
    have hres := List.fst_mem_of_mem_zipIdx hy
    rcases List.mem_append.1 hres with h | h
    · obtain ⟨c, hcm, hcy⟩ := List.mem_map.1 h
      rw [hm'] at hin
      have hcp : c.pair = y.1.reg := by rw [← hcy]; rfl
      refine (List.nodup_append.1 hnd).2.2 _ hin _ (List.mem_map.2 ⟨c, hcm, hcp⟩) rfl
    · obtain ⟨f, -, hfy⟩ := List.mem_map.1 h
      rw [show (Prod.swap y).2 = y.1 from rfl, ← hfy] at he
      cases he

theorem owned_step (hI : KevOwned s) (hc : KevOrderly s e) (hs : kevStep D s e = some s') :
    KevOwned s' := by
  obtain ⟨hI', hthr⟩ := kev_step hI.toKevInv hs
  have hq := kevStep_queue hs
  have hm' : s'.mayHold = Kqueue.mayHold (s.queueAfter e).kevents0 (s.queueAfter e).kq := by
    rw [queue_mayHold, hq]
  have hb' : s'.batch = (s.queueAfter e).batch := congrArg KevQueue.batch hq
  have quiet : (∀ u rc, ¬ Switches D s u rc e) → s'.mayHold.Sublist s.mayHold →
      s'.batch.Sublist s.batch → KevOwned s' := fun hsw hm hb =>
    hI.shrink hI' hm hb
      (fun x hx => (hthr _).waits (hI.not_me (hI.table x (hm.subset hx))) (hsw _))
      (fun x hx => (hthr _).waits (hI.not_me (hI.batch x (hb.subset hx))) (hsw _))
  cases e with
  | spawn t | block st d | exit | wake t | setRc t v =>
    exact quiet (fun _ _ h => h) (by rw [hm']; exact .refl _) (by rw [hb']; exact .refl _)
  | resume t =>
    have hbn : s.batch = [] := by
      simp only [kevStep] at hs
      split at hs
      · rename_i h
        exact h.1.2
      · cases hs
    have hm : s'.mayHold = s.mayHold := hm'
    refine hI.shrink hI' (by rw [hm]) (by rw [hb']; exact .refl _) ?_ ?_
    · intro x hx
      rw [hm] at hx
      refine (hthr _).waits (hI.not_me (hI.table x hx)) fun rc hsw => ?_
      obtain ⟨w, hw, -⟩ := hI.table x hx
      rw [← hsw.1] at hw
      exact hc (by rw [hw]; exact Option.some_ne_none w) x hx hsw.1.symm
    · intro x hx
      rw [hb', show (s.queueAfter (.resume t)).batch = s.batch from rfl, hbn] at hx
      cases hx
  | wait w =>
    obtain ⟨t, ht, -⟩ := Option.map_eq_some_iff.1 hs
    have hm : s'.mayHold = s.mayHold ++ w.pairs.map (·, t) := by
      rw [hm']
      simp only [queueAfter, ht, Option.elim]
      exact mayHold_adds w.pairs t
    have hb : s'.batch = s.batch := by
      rw [hb']
      simp only [queueAfter, ht, Option.elim]
      rfl
    have hwt : (s'.thr t).wait = some w := by
      cases hthr t with
      | kept h =>
        obtain ⟨t', ht', rfl⟩ := Option.map_eq_some_iff.1 hs
        cases ht.symm.trans ht'
        unfold waitBegin
        simp
      | began w' he _ hw => cases he; exact hw
      | returned rc he => cases he
    have hold : ∀ u p, s.WaitsOn u p → u ≠ t ∧ s'.WaitsOn u p := by
      intro u p h
      have hne := hI.not_me h
      obtain ⟨w', hw', hp⟩ := h
      refine ⟨fun h => hne (h ▸ ht), w', ((hthr u).waits hne fun _ h => h).trans hw', hp⟩
    refine ⟨hI', fun x hx => ?_, fun x hx => ?_, ?_, ?_, fun x hx he hin => ?_⟩
    · rw [hm] at hx
      rcases List.mem_append.1 hx with h | h
      · exact (hold _ _ (hI.table x h)).2
      · obtain ⟨p, hp, rfl⟩ := List.mem_map.1 h
        exact ⟨w, hwt, hp⟩
    · rw [hb] at hx
      exact (hold _ _ (hI.batch x hx)).2
    · rw [hm]
      refine List.nodup_append.2 ⟨hI.once, (pairs_nodup w).map fun _ _ h => (Prod.ext_iff.1 h).1, ?_⟩
      intro x hx y hy hxy
      obtain ⟨p, -, rfl⟩ := List.mem_map.1 hy
      subst hxy
      exact (hold _ _ (hI.table _ hx)).1 rfl
    · rw [hb]
      exact hI.batchOnce
    · rw [hb] at hx
      rw [hm] at hin
      rcases List.mem_append.1 hin with h | h
      · exact hI.errorOnce x hx he h
      · obtain ⟨p, -, hp⟩ := List.mem_map.1 h
        exact (hold _ _ (hI.batch x hx)).1 (congrArg Prod.snd hp).symm
  | interrupt t =>
    refine quiet (fun _ _ h => h) ?_ ?_
    · rw [hm', queueAfter]
      split
      · refine mayHold_deletes fun d hd => ?_
        obtain ⟨p, -, rfl⟩ := List.mem_map.1 hd
        rfl
      · exact .refl _
    · rw [hb', queueAfter]
      split <;> exact .refl _
  | close fd =>
    refine quiet (fun _ _ h => h) ?_ (by rw [hb']; exact .refl _)
    rw [hm']
    exact mayHold_sublist List.filter_sublist
  | kevent refused fired => exact owned_kevent hI hc hs
  | keventError n refused => exact hc.elim
  | entry =>
    obtain ⟨i, kev, rest, hb⟩ := entry_batch hs
    have hrest : s'.batch = rest := by
      rw [hb', queueAfter, hb]
    have hsub : s'.mayHold.Sublist s.mayHold ∧
        (kev.error = false → ∀ x ∈ s'.mayHold, x.1 ≠ kev.pair) := by
      rw [hm', queueAfter, hb]
      dsimp only
      split
      · rename_i he
        exact ⟨.refl _, fun h => by rw [h] at he; cases he⟩
      · constructor
        · exact mayHold_deletes (fun d hd => by rw [List.mem_singleton.1 hd])
        · intro _ x hx
          have := mayHold_snoc s.kevents0 ⟨kev.pair, false, kev.udata⟩ s.kq
          exact (mem_drop.1 (this ▸ hx)).2
    refine hI.shrink hI' hsub.1 (by rw [hrest, hb]; exact List.sublist_cons_self ..) ?_ ?_
    · intro x hx
      have hx0 := hsub.1.subset hx
      refine (hthr _).waits (hI.not_me (hI.table x hx0)) fun rc hsw => ?_
      obtain ⟨i', kev', rest', hb2, hu, hst, -⟩ := hsw
      cases hb.symm.trans hb2
      obtain ⟨h1, h2⟩ := (hI.alone hc hb (hu ▸ hst)).1 x hx0 hu.symm
      exact hsub.2 h2 x hx h1
    · intro x hx
      rw [hrest] at hx
      refine (hthr _).waits (hI.not_me (hI.batch x (by rw [hb]; exact .tail _ hx))) fun rc hsw => ?_
      obtain ⟨i', kev', rest', hb2, hu, hst, -⟩ := hsw
      cases hb.symm.trans hb2
      exact (hI.alone hc hb (hu ▸ hst)).2 x hx hu.symm

theorem KevOwned.matches (hI : KevOwned s) : Matches s e := by
  cases e with
  | entry => exact fun x hx _ => hI.batch x (List.mem_of_mem_head? hx)
  | _ => trivial

end

/-- In every run of such steps, the batch loop resumes a thread only for what it
waits for. -/
theorem kevent_matches {D : KevBuild} {es : List KevEvent}
    (hc : Along (kevStep D) KevOrderly .init es) : Along (kevStep D) Matches .init es :=
  along_of_inv (I := KevOwned) (fun _ _ _ hI hc hs => owned_step hI hc hs)
    (fun _ _ hI _ => hI.matches) kevOwned_init hc

/-! ## Runs in which an entry comes too late -/

def KevBuild.sample : KevBuild := { Diag.sample with asserts := true }

/-- Threads 1 and 2 read descriptors 5 and 6. -/
def twoDescriptors : List KevEvent :=
  [.spawn 1, .spawn 2, .resume 1, .wait ⟨.waitForRead, 5⟩, .resume 2, .wait ⟨.waitForRead, 6⟩]

/-- Both descriptors are ready, and both threads are resumed. -/
def bothReady : List KevEvent :=
  twoDescriptors ++ [.kevent [] [(⟨5, EVFILT_READ⟩, 1, ⟨0, 10⟩), (⟨6, EVFILT_READ⟩, 2, ⟨0, 10⟩)],
    .entry, .block .join none, .entry, .block .join none, .kevent [] []]

theorem kevent_matches_bothReady :
    ∃ s, exec (kevStep .sample) .init bothReady = some s ∧ s.kq = [] ∧
      Along (kevStep .sample) Matches .init bothReady := by
  obtain ⟨s, hs⟩ := Option.isSome_iff_exists.1
    (show (exec (kevStep .sample) .init bothReady).isSome by decide)
  exact ⟨s, hs, fact_of_map hs (f := KevSt.kq) (by decide),
    kevent_matches (along_of_decide (by decide))⟩

/-- The thread of the first entry interrupts the thread of the second one. -/
def interruptInBatch : List KevEvent :=
  twoDescriptors ++ [.kevent [] [(⟨5, EVFILT_READ⟩, 1, ⟨0, 10⟩), (⟨6, EVFILT_READ⟩, 2, ⟨0, 10⟩)],
    .entry, .interrupt 2, .block .join none]

/-- The registration of thread 2 is then deleted twice, by the interrupt and by
the entry; thread 2 sleeps when the error comes, and is resumed. -/
theorem error_resumes_sleeper : ∃ s,
    exec (kevStep .sample) .init
      (interruptInBatch ++ [.entry, .block .sleep (some 100), .kevent [] []]) = some s ∧
    (s.thr 2).state = .sleep ∧ ¬ Matches s .entry ∧
    ((kevStep .sample s .entry).map KevSt.me) = some (some 2) := by
  obtain ⟨s, hs⟩ := Option.isSome_iff_exists.1
    (show (exec (kevStep .sample) .init
      (interruptInBatch ++ [.entry, .block .sleep (some 100), .kevent [] []])).isSome by decide)
  refine ⟨s, hs, fact_of_map hs (f := fun s => (s.thr 2).state) (by decide), fun hm => ?_,
    fact_of_map hs (f := fun s => (kevStep .sample s .entry).map KevSt.me) (by decide)⟩
  have hb := fact_of_map hs (f := KevSt.batch)
    (a := [(0, ⟨⟨6, EVFILT_READ⟩, true, 2, ⟨0, 0⟩⟩)]) (by decide)
  have hl := fact_of_map hs (f := fun s => (s.thr 2).live) (a := true) (by decide)
  have hw := fact_of_map hs (f := fun s => (s.thr 2).wait) (a := none) (by decide)
  obtain ⟨w, hw', -⟩ := hm (0, ⟨⟨6, EVFILT_READ⟩, true, 2, ⟨0, 0⟩⟩) (by rw [hb]; rfl) hl
  rw [hw] at hw'
  cases hw'

/-! ## Interrupts -/

/-- The threads that were interrupted in the wait they are in. -/
def interruptedIn (s : KevSt) (e : KevEvent) (s' : KevSt) (g : Ptr → Bool) : Ptr → Bool := fun u =>
  (decide (e = .interrupt u) && (s.thr u).live && (s.thr u).wait.isSome) ||
    (g u && (s'.thr u).wait.isSome)

/-- No wait returns a success at this step to a thread that was interrupted
in it. -/
def InterruptKept (D : KevBuild) (p : KevSt × (Ptr → Bool)) (e : KevEvent) : Prop :=
  ∀ s', kevStep D p.1 e = some s' → ∀ u, p.2 u → (s'.thr u).wait = none →
    ∃ r, s'.ret = some r ∧ r.thr = u ∧ r.ok = false

/-- A thread is interrupted in a wait only with no entry to come that reports
something for it, and nothing is reported for it after that. -/
def InterruptsFirst (p : KevSt × (Ptr → Bool)) : KevEvent → Prop
  | .interrupt t => (p.1.thr t).live → (p.1.thr t).wait ≠ none →
      ∀ x ∈ p.1.batch, x.2.udata = t → x.2.error
  | .kevent _ fired => ∀ f ∈ fired, p.2 f.2.1 = false
  | _ => True

instance (p : KevSt × (Ptr → Bool)) (e : KevEvent) : Decidable (InterruptsFirst p e) := by
  refine e.casesOn ?_ ?_ ?_ ?_ ?_ ?_ ?_ ?_ ?_ ?_ ?_ ?_ <;> intros <;> unfold InterruptsFirst <;>
    infer_instance

structure InterruptInv (p : KevSt × (Ptr → Bool)) : Prop extends KevInv p.1 where
  waits : ∀ u, p.2 u → (p.1.thr u).wait ≠ none
  fails : ∀ u, p.2 u → (p.1.thr u).rc ≠ 0
  errors : ∀ u, p.2 u → ∀ x ∈ p.1.batch, x.2.udata = u → x.2.error

section
variable {D : KevBuild} {s' : KevSt} {p p' : KevSt × (Ptr → Bool)} {e : KevEvent} {u : Ptr}

theorem InterruptInv.kept (hI : InterruptInv p) (hs : kevStep D p.1 e = some s') (hu : p.2 u) :
    Kept (p.1.thr u) (s'.thr u) ∨
      ((s'.thr u).wait = none ∧ ∃ r, s'.ret = some r ∧ r.thr = u ∧ r.ok = false) := by
  obtain ⟨w, hw⟩ := Option.ne_none_iff_exists'.1 (hI.waits u hu)
  cases (kev_step hI.toKevInv hs).2 u with
  | kept h => exact .inl h
  | began w' he hme hw' => exact absurd hme (hI.toKevInv.not_me hw)
  | returned rc he hw' hret =>
    obtain ⟨r, hr, hrep, -⟩ := hret w hw
    refine .inr ⟨hw', r, hr, hrep.thr, Bool.eq_false_iff.2 fun h => ?_⟩
    have hrc : rc = 0 := hrep.rc h
    cases e with
    | resume t => exact hI.fails u hu (he.2.2 ▸ hrc)
    | entry =>
      obtain ⟨i, kev, rest, hb, hku, -, -, hkrc⟩ := he
      rw [if_pos (hI.errors u hu (i, kev) (by rw [hb]; exact List.mem_cons_self ..) hku)] at hkrc
      exact D.ne_zero _ _ (hkrc.symm.trans hrc)
    | _ => exact he.elim

/-- Where the entries of a batch come from. -/
theorem batch_step {s : KevSt} {x : Nat × Kevent} (hs : kevStep D s e = some s')
    (hx : x ∈ s'.batch) :
    x ∈ s.batch ∨ ∃ refused fired, e = .kevent refused fired ∧ x.2 ∈ s.results refused fired := by
  rw [show s'.batch = (s.queueAfter e).batch from congrArg KevQueue.batch (kevStep_queue hs)] at hx
  cases e with
  | wait w =>
    refine .inl ?_
    rw [queueAfter] at hx
    cases hme : s.me <;> rw [hme] at hx <;> exact hx
  | interrupt t =>
    refine .inl ?_
    rw [queueAfter] at hx
    split at hx <;> exact hx
  | kevent refused fired =>
    obtain ⟨y, hy, rfl⟩ := List.mem_map.1 hx
    exact .inr ⟨refused, fired, rfl, List.fst_mem_of_mem_zipIdx hy⟩
  | entry =>
    refine .inl ?_
    cases hb : s.batch with
    | nil => rw [queueAfter, hb] at hx; exact hb ▸ hx
    | cons y rest => rw [queueAfter, hb] at hx; exact .tail _ hx
  | _ => exact .inl hx

theorem interrupt_inv_step (hI : InterruptInv p) (hc : InterruptsFirst p e)
    (hs : recorded (kevStep D) interruptedIn p e = some p') : InterruptInv p' := by
  obtain ⟨hs, hg⟩ := recorded_step hs
  obtain ⟨hI', hthr⟩ := kev_step hI.toKevInv hs
  have cases_of : ∀ u, p'.2 u → (e = .interrupt u ∧ (p.1.thr u).live ∧ (p.1.thr u).wait ≠ none) ∨
      (p.2 u ∧ Kept (p.1.thr u) (p'.1.thr u)) := by
    intro u hu
    rw [hg] at hu
    simp only [interruptedIn, Bool.or_eq_true, Bool.and_eq_true, decide_eq_true_eq,
      Option.isSome_iff_ne_none] at hu
    rcases hu with ⟨⟨he, hl⟩, hw⟩ | ⟨hu, hw⟩
    · exact .inl ⟨he, hl, hw⟩
    · refine .inr ⟨hu, ?_⟩
      rcases hI.kept hs hu with h | ⟨h, -⟩
      · exact h
      · exact absurd h hw
  -- what the interrupt itself sets
  have hit : ∀ u, e = .interrupt u → (p.1.thr u).live →
      p'.1.thr u = { p.1.thr u with
        rc := D.CO_RC_USER_INTERRUPTED, state := .setInterrupt,
        expireTicks := SLEEP_RESUME_NOW, queued := true } := by
    intro u he hl
    rw [he] at hs
    rw [(interrupt_cases hs).2]
    exact (setInterrupt_spec hl).2.2
  refine ⟨hI', fun u hu => ?_, fun u hu => ?_, fun u hu x hx hxu => ?_⟩
  · rcases cases_of u hu with ⟨he, hl, hw⟩ | ⟨hu, hk⟩
    · rw [hit u he hl]
      exact hw
    · rw [hk.wait]
      exact hI.waits u hu
  · rcases cases_of u hu with ⟨he, hl, hw⟩ | ⟨hu, hk⟩
    · rw [hit u he hl]
      exact D.ne_zero _ _
    · exact hk.rc (hI.waits u hu) (hI.fails u hu)
  · rcases batch_step hs hx with h | ⟨refused, fired, he, h⟩
    · rcases cases_of u hu with ⟨he, hl, hw⟩ | ⟨hu, -⟩
      · rw [he] at hc
        exact hc hl hw x h hxu
      · exact hI.errors u hu x h hxu
    · rcases List.mem_append.1 h with h | h
      · obtain ⟨c, -, hcx⟩ := List.mem_map.1 h
        rw [← hcx]
      · obtain ⟨f, hf, hfx⟩ := List.mem_map.1 h
        rcases cases_of u hu with ⟨he', -⟩ | ⟨hu, -⟩
        · rw [he] at he'
          cases he'
        · rw [he] at hc
          have : f.2.1 = u := by rw [← hxu, ← hfx]
          have := hc f hf
          simp_all

end

/-- In every run of such steps, an interrupted wait returns a failure. -/
theorem interrupt_kept {D : KevBuild} {es : List KevEvent}
    (hc : Along (recorded (kevStep D) interruptedIn) InterruptsFirst (.init, fun _ => false) es) :
    Along (recorded (kevStep D) interruptedIn) (InterruptKept D) (.init, fun _ => false) es := by
  refine along_of_inv (I := InterruptInv) (fun p e p' hI hc hs => interrupt_inv_step hI hc hs)
    (fun p e hI _ s' hs u hu hw => ?_) ?_ hc
  · rcases hI.kept hs hu with h | ⟨-, h⟩
    · exact absurd (h.wait.symm.trans hw) (hI.waits u hu)
    · exact h
  · refine ⟨kev_init, ?_, ?_, ?_⟩ <;> exact fun _ h => by cases h

/-- Thread 3 interrupts thread 2 between two batches. -/
def interruptOutside : List KevEvent :=
  twoDescriptors ++ [.spawn 3, .resume 3, .interrupt 2, .exit, .resume 2]

theorem interrupt_kept_outside : ∃ p,
    exec (recorded (kevStep .sample) interruptedIn) (.init, fun _ => false) interruptOutside =
      some p ∧
    p.1.ret = some ⟨2, ⟨.waitForRead, 6⟩, false, KevBuild.sample.CO_RC_USER_INTERRUPTED, none⟩ ∧
    Along (recorded (kevStep .sample) interruptedIn) (InterruptKept .sample)
      (.init, fun _ => false) interruptOutside := by
  obtain ⟨p, hp⟩ := Option.isSome_iff_exists.1
    (show (exec (recorded (kevStep .sample) interruptedIn) (.init, fun _ => false)
      interruptOutside).isSome by decide)
  exact ⟨p, hp, fact_of_map hp (f := fun p => p.1.ret) (by decide),
    interrupt_kept (along_of_decide (by decide))⟩

/-- Interrupted by the thread of an earlier entry, thread 2 finds its own entry
delivered, and its wait succeeds. -/
theorem interrupt_lost : ∃ p,
    exec (recorded (kevStep .sample) interruptedIn) (.init, fun _ => false) interruptInBatch =
      some p ∧
    p.2 2 = true ∧ ¬ InterruptKept .sample p .entry ∧
    (kevStep .sample p.1 .entry).bind KevSt.ret =
      some ⟨2, ⟨.waitForRead, 6⟩, true, 0, none⟩ := by
  obtain ⟨p, hp⟩ := Option.isSome_iff_exists.1
    (show (exec (recorded (kevStep .sample) interruptedIn) (.init, fun _ => false)
      interruptInBatch).isSome by decide)
  have hit := fact_of_map hp (f := fun p => p.2 2) (a := true) (by decide)
  have hret := fact_of_map hp (f := fun p => (kevStep .sample p.1 .entry).bind KevSt.ret)
    (a := some ⟨2, ⟨.waitForRead, 6⟩, true, 0, none⟩) (by decide)
  refine ⟨p, hp, hit, fun hk => ?_, hret⟩
  obtain ⟨s', hs', hr⟩ := Option.bind_eq_some_iff.1 hret
  have hw := fact_of_map hp (f := fun p => (kevStep .sample p.1 .entry).map fun s => (s.thr 2).wait)
    (a := some none) (by decide)
  rw [hs'] at hw
  obtain ⟨r, hr', -, hok⟩ := hk s' hs' 2 hit (Option.some.inj hw)
  rw [hr] at hr'
  cases hr'
  cases hok

end Mnthr

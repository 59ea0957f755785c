import Mnthr.L4Inv.Idents
import Mnthr.L5Runs.Waitqs

/-!
# Thread identity in runs

* `threads_identified`: the ids tell all threads apart, and timed waits find
  the thread they began to wait for, in every state of a run exactly when
  every thread that the run creates gets a fresh id.
* `identified_of_few`: so do all runs that create fewer than 2 ^ 32 threads.
* `identified_fullTurn`: the next thread after those is alive with the id that
  `mnthr_is_dead` looks for.
-/
namespace Mnthr
open St

section
variable {D : Diag} {objs : Objs} {now : Nat} {es : List Event} {p : St × IdHist}

theorem threads_identified
    (hr : exec (idents D) (St.init objs now, .empty) es = some p) :
    (∀ pre post u, es = pre ++ post →
        exec (idents D) (St.init objs now, .empty) pre = some u → Identified u) ↔
      Along (St.step D) FreshId (St.init objs now) es := by
  have hal : Along (St.step D) FreshId (St.init objs now) es ↔
      Along (idents D) (fun q e => FreshId q.1 e) (St.init objs now, .empty) es :=
    along_recorded (p := (St.init objs now, IdHist.empty))
  rw [hal]
  refine exec_inv_iff (J := IdInv) (B := fun _ _ => True) (fun q e q' hq hs => idInv_step hq hs)
    (fun q e q' hq _ hi hs => identified_step hq hi hs) (idInv_init objs now)
    (identified_init objs now) ?_ hr
  exact along_of_forall fun _ _ => trivial

/-- Every run that creates fewer than 2 ^ 32 threads keeps them identified. -/
theorem identified_of_few (hr : exec (idents D) (St.init objs now, .empty) es = some p)
    (hk : es.countP Event.spawns < 2 ^ 32) : Identified p := by
  have hc : Along (St.step D) FreshId (St.init objs now) es :=
    fresh_of_few (numbered_init objs now) rfl (by omega)
  refine (exec_inv (I := fun q => IdInv q ∧ Identified q) (C := fun q e => FreshId q.1 e)
    (fun q e q' hq hcq hs => ?_) ⟨idInv_init objs now, identified_init objs now⟩
    (along_recorded.1 hc) hr).2
  exact ⟨idInv_step hq.1 hs, identified_of_fresh hq.1 hq.2 hcq hs⟩

end

/-- The timeout branch of a timed wait is taken for the thread it waited for:
`ctx->co.id != id || ctx->co.state == CO_STATE_DORMANT` is false of no other. -/
theorem Identified.of_not_gone {p : St × IdHist} {t x : Ptr} {n : Int} (h : Identified p)
    (hI : Inv p.1) (hr : p.1.remembers t x n) (hg : ¬ p.1.gone x n) :
    p.2.born x = p.2.awaited t := by
  obtain ⟨hid, hst⟩ := not_or.1 hg
  exact h.original t x n hr (hI.live x hst) (not_not.1 hid)

/-- `FreshId`, evaluated: addresses from `brk` on hold no thread. -/
def freshId (s : St) (e : Event) : Bool :=
  match s.creates e with
  | none => true
  | some c => s.coId != -1 &&
    ((List.range s.brk).all fun d => d == c || (s.ctx d).f == none || (s.ctx d).id != s.coId) &&
    noStaleId s e

theorem freshId_of_check {s : St} {e : Event} (hI : Inv s) (h : freshId s e) : FreshId s e := by
  intro c hc
  simp only [freshId, hc, Bool.and_eq_true, List.all_eq_true, List.mem_range] at h
  obtain ⟨⟨hne, hall⟩, hst⟩ := h
  refine ⟨by simpa using hne, fun d hd hf => ?_, noStaleId_of_check hI hst c hc⟩
  have hlt : d < s.brk := by
    by_contra hb
    exact hf (hI.fresh d (Nat.le_of_not_lt hb))
  have := hall d hlt
  simpa [hd, hf] using this

/-- Thread 0, back from its peek at thread 1, finds a second thread in context
1 and does not take it for the first. -/
theorem threads_identified_recycled : ∃ p,
    exec (idents .sample) (St.init .sample 0, .empty) (peekedExit ++ [.call (.spawn 0)]) = some p ∧
      p.2.born 1 = 2 ∧ p.2.awaited 0 = 1 ∧ Identified p := by
  obtain ⟨p, hp⟩ := Option.isSome_iff_exists.1 (show (exec (idents .sample)
    (St.init .sample 0, .empty) (peekedExit ++ [.call (.spawn 0)])).isSome by decide)
  have hc : Along (St.step .sample) FreshId (St.init .sample 0)
      (peekedExit ++ [.call (.spawn 0)]) :=
    along_of_check (I := Inv) (p := freshId) (fun _ _ _ hu hs => inv_step hu hs)
      (fun _ _ hu hc => freshId_of_check hu hc) (inv_init .sample 0) (by decide)
  exact ⟨p, hp, fact_of_map hp (f := fun p => p.2.born 1) (by decide),
    fact_of_map hp (f := fun p => p.2.awaited 0) (by decide),
    (threads_identified hp).2 hc _ [] p (List.append_nil _).symm hp⟩

/-! ## The whole range of `co_id` -/

/-- Four threads, then one after the other until `co_id` is -1, and one more. -/
def fullTurn : List Event :=
  longPeek ++ (List.replicate (2 ^ 32 - 5) oneMore).flatten ++ [.call (.spawn 0)]

theorem identified_fullTurn : ¬ ∀ (D : Diag) (objs : Objs) (now : Nat) (es : List Event)
    (p : St × IdHist), exec (idents D) (St.init objs now, .empty) es = some p → Identified p := by
  intro h
  obtain ⟨s, hs⟩ := Option.isSome_iff_exists.1
    (show (exec (St.step .sample) (atPeek (-1)) [.call (.spawn 0)]).isSome by decide)
  have hlive : (s.ctx 3).f = some 0 ∧ s.isDead 3 = true :=
    Prod.mk.inj (fact_of_map hs (f := fun s => ((s.ctx 3).f, s.isDead 3)) (by decide))
  have hmany := exec_manyMore (2 ^ 32 - 5) 4
  rw [show ((4 : Int) + (2 ^ 32 - 5 : Nat)).bmod (2 ^ 32) = -1 by decide,
    show (4 : Int).bmod (2 ^ 32) = 4 by decide] at hmany
  have hr : exec (St.step .sample) (St.init .sample 0) fullTurn = some s :=
    exec_trans (exec_trans sampleRun_longPeek hmany) hs
  obtain ⟨g, hg⟩ := recorded_exec IdHist.empty hr
  have hdead := (h _ _ _ _ _ hg).alive 3 (by simp [hlive.1])
  rw [hlive.2] at hdead
  cases hdead

end Mnthr

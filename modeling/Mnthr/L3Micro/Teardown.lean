import Mnthr.L1State.SleepqMem
import Mnthr.L3Micro.Decompose

/-!
# `mnthr_fini`

`mnthr_fini` calls `mnthr_ctx_fini` for one context of `ctxes` after the other.
`Teardown.step` is that loop, cut into the clearing of a context, the rounds of
`resume_waitq_all` on its wait queue, and the rest up to `free`. It is run on two
states of the contexts: on the lists of `St` (`St.ctxOps`), and on the memory
(`Heap.ctxOps`), where every queue is a `DTQUEUE` and each operation also returns
the contexts that it reads or writes.

`exec_finalize`: on the lists the steps for one context are `St.finalize`.
-/
namespace Mnthr
open St

/-- Steps of `mnthr_ctx_fini`, src/mnthr.c:738-779. -/
inductive FiniStep where
  /-- `co_fini_ucontext`, and `mnthr_ctx_finalize` as far as `resume_waitq_all` -/
  | begin (c : Ptr)
  /-- `resume_waitq_all` wakes `t`, which waits for `c` -/
  | wake (c t : Ptr)
  /-- the rest of `mnthr_ctx_finalize`, and `free` -/
  | release (c : Ptr)
  deriving DecidableEq, Repr

/-- What the steps do to a state of the contexts. -/
structure CtxOps (M : Type) where
  /-- `DTQUEUE_HEAD(&c->waitq)` -/
  first : M → Ptr → Option Ptr
  clear : M → Ptr → M
  wake : M → Ptr → Ptr → M
  release : M → Ptr → M

/-- `array_fini(&ctxes)` at some point: the contexts that are left, of which the
first is being finalized when `begun` is set, and those that have been freed. -/
structure Teardown (M : Type) where
  mem : M
  todo : List Ptr
  begun : Bool
  freed : List Ptr

namespace Teardown
variable {M : Type}

/-- mirrors src/mnthr.c:563 -/
def start (m : M) (ctxes : List Ptr) : Teardown M := ⟨m, ctxes, false, []⟩

def step (o : CtxOps M) (u : Teardown M) : FiniStep → Option (Teardown M)
  | .begin c =>
    if u.todo.head? = some c ∧ u.begun = false then
      some { u with mem := o.clear u.mem c, begun := true }
    else none
  | .wake c t =>
    if u.todo.head? = some c ∧ u.begun = true ∧ o.first u.mem c = some t then
      some { u with mem := o.wake u.mem c t }
    else none
  | .release c =>
    if u.todo.head? = some c ∧ u.begun = true ∧ o.first u.mem c = none then
      some ⟨o.release u.mem c, u.todo.tail, false, u.freed ++ [c]⟩
    else none

end Teardown

/-! ## On lists -/

namespace St

/-- mirrors src/mnthr.c:756-764, 774 -/
def releaseCtx (s : St) (c : Ptr) : St :=
  { s with wq := ((s.wq.setQueue (.ctx c) []).leave c).setHosting c none }.setCtx c
    { s.ctx c with rc := 0 }

theorem releaseCtx_wq {s : St} {c : Ptr} (h : s.wq.queue (.ctx c) = []) :
    (s.releaseCtx c).wq = (s.wq.leave c).setHosting c none := by
  rw [← setQueue_nil h]
  rfl

def ctxOps : CtxOps St where
  first s c := (s.wq.queue (.ctx c)).head?
  clear s c := s.setCtx c (s.ctx c).cleared
  wake s c t := s.woken (.ctx c) t (s.wq.queue (.ctx c)).tail
  release := releaseCtx

section
variable {s s' : St} {c : Ptr} {cs fr : List Ptr}

/-- The rounds of `resume_waitq_all`. -/
theorem exec_wakes : ∀ {n : Nat} {s s' : St}, (s.wq.queue (.ctx c)).length = n →
    resumeWaitqN n s (.ctx c) = some s' →
    exec (Teardown.step ctxOps) ⟨s, c :: cs, true, fr⟩ ((s.wq.queue (.ctx c)).map (.wake c)) =
      some ⟨s', c :: cs, true, fr⟩ ∧ s'.wq.queue (.ctx c) = []
  | 0, s, s', hn, h => by
    cases h
    have hnil := List.length_eq_zero_iff.1 hn
    exact ⟨by rw [hnil]; rfl, hnil⟩
  | n + 1, s, s', hn, h => by
    obtain ⟨s1, h1, h2⟩ := Option.bind_eq_some_iff.1 h
    rcases resumeWaitqOne_cases h1 with ⟨hq, -⟩ | ⟨t, rest, hq, -, rfl⟩
    · rw [hq] at hn; cases hn
    · have hq1 : (s.woken (.ctx c) t rest).wq.queue (.ctx c) = rest := by
        rw [woken_queue, Function.update_self]
      obtain ⟨hr, he⟩ := exec_wakes (by rw [hq1]; simpa [hq] using hn) h2
      refine ⟨?_, he⟩
      rw [hq1] at hr
      have hstep : Teardown.step ctxOps ⟨s, c :: cs, true, fr⟩ (.wake c t) =
          some ⟨s.woken (.ctx c) t rest, c :: cs, true, fr⟩ := by
        simp [Teardown.step, ctxOps, hq]
      simp only [hq, List.map_cons, exec, hstep, Option.bind_some]
      exact hr

/-- The steps for one context are `mnthr_ctx_finalize`, and `co.rc` is cleared. -/
theorem exec_finalize (h : s.finalize c = some s') :
    exec (Teardown.step ctxOps) ⟨s, c :: cs, false, fr⟩
        (.begin c :: ((s.wq.queue (.ctx c)).map (.wake c) ++ [.release c])) =
      some ⟨s'.setCtx c { s'.ctx c with rc := 0 }, cs, false, fr ++ [c]⟩ := by
  obtain ⟨s1, h1, rfl⟩ := Option.map_eq_some_iff.1 h
  obtain ⟨hr, he⟩ : exec (Teardown.step ctxOps) ⟨s.setCtx c (s.ctx c).cleared, c :: cs, true, fr⟩
      ((s.wq.queue (.ctx c)).map (.wake c)) = some ⟨s1, c :: cs, true, fr⟩ ∧
        s1.wq.queue (.ctx c) = [] := exec_wakes rfl h1
  have hbegin : Teardown.step ctxOps ⟨s, c :: cs, false, fr⟩ (.begin c) =
      some ⟨s.setCtx c (s.ctx c).cleared, c :: cs, true, fr⟩ := by
    simp [Teardown.step, ctxOps]
  have hend : Teardown.step ctxOps ⟨s1, c :: cs, true, fr⟩ (.release c) =
      some ⟨s1.releaseCtx c, cs, false, fr ++ [c]⟩ := by
    simp [Teardown.step, ctxOps, he]
  have hlast : exec (Teardown.step ctxOps) ⟨s1, c :: cs, true, fr⟩ [.release c] =
      some ⟨s1.releaseCtx c, cs, false, fr ++ [c]⟩ := by
    simp only [exec, hend, Option.bind_some]
  simp only [exec, hbegin, Option.bind_some]
  exact exec_trans hr hlast

end

end St

/-! ## In memory -/

/-- The contexts in memory. `trie`, `bucket` and `link` are the sleep queue, as in
`SleepqMem`; `waitLink` is the `waitq_link` of all contexts. -/
structure Heap where
  ctx : Ptr → Ctx
  trie : OrdMap Nat Ptr
  bucket : Ptr → Dtqueue Ptr
  link : Links Ptr
  waitq : Waitq → Dtqueue Ptr
  waitLink : Links Ptr
  hosting : Ptr → Option Waitq

/-- The context that a wait queue is a field of; the queues of conditions and
locks belong to the program. -/
def Waitq.owner : Waitq → Option Ptr
  | .ctx c => some c
  | _ => none

namespace Heap

def sleepq (h : Heap) : SleepqMem := ⟨h.trie, h.bucket, h.link, fun c => (h.ctx c).expireTicks⟩

def setSleepq (h : Heap) (m : SleepqMem) : Heap :=
  { h with trie := m.trie, bucket := m.bucket, link := m.link }

def setCtx (h : Heap) (c : Ptr) (x : Ctx) : Heap := { h with ctx := Function.update h.ctx c x }

/-- mirrors src/mnthr.c:1424-1452; `me` is NULL. -/
def setResume (h : Heap) (t : Ptr) : Heap × List Ptr :=
  if (h.ctx t).f = none then (h, [t])
  else
    let r := h.sleepq.remove t
    let h1 := (h.setSleepq r.1).setCtx t
      { h.ctx t with state := .setResume, expireTicks := SLEEP_RESUME_NOW }
    let r1 := h1.sleepq.enqueue (h.ctx t).prio t
    (h1.setSleepq r1.1, t :: (r.2 ++ r1.2))

/-- mirrors src/mnthr.c:700-752 -/
def clear (h : Heap) (c : Ptr) : Heap × List Ptr := (h.setCtx c (h.ctx c).cleared, [c])

/-- mirrors src/mnthr.c:1346-1352: a round of the loop, `t` is the head. -/
def wake (h : Heap) (c t : Ptr) : Heap × List Ptr :=
  let p := Dtqueue.dequeue (h.waitLink, h.waitq (.ctx c))
  let h1 := { h with
    waitLink := p.1.clear t
    waitq := Function.update h.waitq (.ctx c) p.2
    hosting := Function.update h.hosting t none }
  let r := h1.setResume t
  (r.1, [c, t] ++ (h.waitLink.next t).toList ++ r.2)

/-- mirrors src/mnthr.c:756-776 -/
def release (h : Heap) (c : Ptr) : Heap × List Ptr :=
  let h1 := { h with waitq := Function.update h.waitq (.ctx c) .empty }.setCtx c
    { h.ctx c with rc := 0 }
  match h.hosting c with
  | none => (h1, [c])
  | some q =>
    let p := Dtqueue.remove (h1.waitLink, h1.waitq q) c
    ({ h1 with
        waitLink := p.1
        waitq := Function.update h1.waitq q p.2
        hosting := Function.update h1.hosting c none },
      c :: (q.owner.toList ++ (h.waitLink.prev c).toList ++ (h.waitLink.next c).toList))

def ctxOps : CtxOps Heap where
  first h c := (h.waitq (.ctx c)).head
  clear h c := (h.clear c).1
  wake h c t := (h.wake c t).1
  release h c := (h.release c).1

/-- The contexts that the step reads or writes. -/
def touches (h : Heap) : FiniStep → List Ptr
  | .begin c => (h.clear c).2
  | .wake c t => (h.wake c t).2
  | .release c => (h.release c).2

end Heap

end Mnthr

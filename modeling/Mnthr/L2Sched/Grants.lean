import Mnthr.L2Sched.Footprint

/-!
# Who holds what, and who was signalled

Two histories of a run. The ledger has an entry for every unit of a semaphore
and every lock that a caller got and has not given back: an acquire or
try_acquire that returned 0, without its release. `signalled q` are the
threads that were taken off the wait queue `q` and have not gone on since: they
have yet to look again at the condition they wait for.
-/
namespace Mnthr

/-- A unit of a semaphore, a read lock, the write lock. -/
inductive Grant where
  | sema (i : Nat)
  | read (i : Nat)
  | write (i : Nat)
  deriving DecidableEq, Repr

/-- For membership in the ledger. -/
instance : LawfulBEq (Option Ptr × Grant) := inferInstance

/-- What a suspended call waits for. -/
def Call.wants : Call → Option Grant
  | .semaAcquire i => some (.sema i)
  | .readLock i => some (.read i)
  | .writeLock i => some (.write i)
  | _ => none

/-- The wait queue of the object. -/
def Grant.queue : Grant → Waitq
  | .sema i => .sema i
  | .read i | .write i => .rwlock i

/-- What the event gives back. -/
def Event.gives : Event → Option Grant
  | .call (.semaRelease i) => some (.sema i)
  | .call (.rwlockReleaseRead i) => some (.read i)
  | .call (.rwlockReleaseWrite i) => some (.write i)
  | _ => none

/-- The call that the event works on has returned: it does not yield, or it has
not yielded. -/
def Event.returned (e : Event) (s' : St) : Bool :=
  match e with
  | .call _ => true
  | _ => decide (s'.pc ≠ .sched)

namespace St

/-- What the running code asks for: with a call of an acquire or try_acquire,
or with the rest of one. -/
def asks (s : St) : Event → Option Grant
  | .call (.semaTryAcquire i) | .block (.semaAcquire i) _ => some (.sema i)
  | .call (.rwlockTryAcquireRead i) | .block (.rwlockAcquireRead i) _ => some (.read i)
  | .call (.rwlockTryAcquireWrite i) | .block (.rwlockAcquireWrite i) _ => some (.write i)
  | .cont _ => s.pc.call.bind Call.wants
  | _ => none

/-- What the running code gets: its acquire or try_acquire returns 0. -/
def granted (s : St) (e : Event) (s' : St) : Option Grant :=
  if e.returned s' = true ∧ s'.ret.map Ret.val = some 0 then s.asks e else none

/-- The ledger after the event; code outside `mnthr_loop` is the caller `none`. -/
def book (s : St) (e : Event) (s' : St) (l : List (Option Ptr × Grant)) :
    List (Option Ptr × Grant) :=
  match s.granted e s', e.gives with
  | some g, _ => (s.me, g) :: l
  | none, some g => l.erase (s.me, g)
  | none, none => l

/-- The signalled threads of `q` after the event. -/
def signalled (q : Waitq) (s : St) (e : Event) (s' : St) (l : List Ptr) : List Ptr :=
  match e, s.pc with
  | .cont _, .post t k => if k.queue = some q then l.erase t else l
  | _, _ => l ++ (s.wq.queue q).filter fun t => decide (t ∉ s'.wq.queue q)

end St

/-- The number of grants of `g` in a ledger. -/
def held (g : Grant) (l : List (Option Ptr × Grant)) : Nat := l.countP (·.2 == g)

/-- The machine with its ledger. -/
def ledger (D : Diag) := recorded (St.step D) St.book

/-- The machine with the signalled threads of `q`. -/
def signals (D : Diag) (q : Waitq) := recorded (St.step D) (St.signalled q)

theorem held_cons (g g' : Grant) (o : Option Ptr) (l : List (Option Ptr × Grant)) :
    held g ((o, g') :: l) = held g l + if g' = g then 1 else 0 := by
  simp [held, List.countP_cons]

theorem held_erase {g g' : Grant} {o : Option Ptr} {l : List (Option Ptr × Grant)}
    (h : (o, g') ∈ l) : held g (l.erase (o, g')) + (if g' = g then 1 else 0) = held g l := by
  have hp := (List.perm_cons_erase h).countP_eq (fun x => x.2 == g)
  rw [List.countP_cons] at hp
  simp only [held, hp, beq_iff_eq]

theorem held_pos {g : Grant} {o : Option Ptr} {l : List (Option Ptr × Grant)} (h : (o, g) ∈ l) :
    0 < held g l :=
  List.countP_pos_iff.2 ⟨(o, g), h, by simp⟩

namespace St
variable {s s' : St} {e : Event} {g : Grant} {l : List (Option Ptr × Grant)}

theorem book_granted (h : s.granted e s' = some g) : s.book e s' l = (s.me, g) :: l := by
  simp [book, h]

theorem book_gives (h : s.granted e s' = none) (hv : e.gives = some g) :
    s.book e s' l = l.erase (s.me, g) := by
  simp [book, h, hv]

/-- An entry stays in the ledger unless it is given back. -/
theorem held_book_ne (h : s.granted e s' ≠ some g) (hv : e.gives ≠ some g) :
    held g (s.book e s' l) = held g l := by
  cases hg : s.granted e s' with
  | some g' =>
    rw [book_granted hg, held_cons, if_neg (by intro heq; subst heq; exact h hg)]
    rfl
  | none =>
    cases hv' : e.gives with
    | none => simp [book, hg, hv']
    | some g' =>
      have hne : g' ≠ g := fun hx => hv (hx ▸ hv')
      rw [book_gives hg hv']
      by_cases hm : (s.me, g') ∈ l
      · have := held_erase (g := g) hm
        rwa [if_neg hne] at this
      · rw [List.erase_of_not_mem hm]

end St

end Mnthr

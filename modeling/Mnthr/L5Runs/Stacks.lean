import Mnthr.L2Sched.Footprint

/-!
# Stacks

The part of a context that the rest of the model leaves out: `co.stack`, which
is mapped when a context gets its first thread and stays mapped for the later
ones, and `uc_stack.ss_size`, which every `VNEW_BODY` writes. `sizedStep` is the
machine with `mnthr_set_stacksize` and these fields beside its state. The size
is right in every state of a run iff every thread that gets a context with a
stack gets it while `stacksize` is what the stack was mapped with
(`stacks_sized`); `mnthr_set_stacksize` does not care (`stacks_resized`).
-/
namespace Mnthr
open St

/-! src/mnthr_private.h:47-51 -/

def PAGE_SIZE : Nat := 4096
def STACKSIZE : Nat := PAGE_SIZE * 8

/-- The sizes of all stacks. `stack` is the size that `co.stack` was mapped with
(`none` for `MAP_FAILED`), `unmaps` are the calls of `munmap` so far: the size of
the mapping, and the size it was given. -/
structure Stacks where
  stacksize : Nat
  stack : Ptr → Option Nat
  ssSize : Ptr → Nat
  unmaps : List (Nat × Nat)

namespace Stacks

def init : Stacks := ⟨STACKSIZE, fun _ => none, fun _ => 0, []⟩

/-- mirrors src/mnthr.c:237-255 -/
def setStacksize (k : Stacks) (v : Nat) : Stacks :=
  let v :=
    if v < PAGE_SIZE * 2 then PAGE_SIZE * 2
    else if PAGE_SIZE * 2048 < v then PAGE_SIZE * 2048
    else v
  let v := if v % PAGE_SIZE ≠ 0 then v + (PAGE_SIZE - v % PAGE_SIZE) else v
  { k with stacksize := v }

/-- mirrors src/mnthr.c:921-938: the stack of `VNEW_BODY`. -/
def vnew (k : Stacks) (c : Ptr) : Stacks :=
  let k1 := if k.stack c = none then
      { k with stack := Function.update k.stack c (some k.stacksize) }
    else k
  { k1 with ssSize := Function.update k1.ssSize c k1.stacksize }

/-- mirrors src/mnthr.c:700-710 -/
def finiUcontext (k : Stacks) (c : Ptr) : Stacks :=
  let k1 := match k.stack c with
    | some m => { k with
        stack := Function.update k.stack c none, unmaps := (m, k.ssSize c) :: k.unmaps }
    | none => k
  { k1 with ssSize := Function.update k1.ssSize c 0 }

/-- The stacks after an event: `mnthr_gc` releases contexts, and a new thread
gets the one that the event takes from `free_list` or allocates. -/
def after (k : Stacks) (s : St) : Event → Stacks
  | .call .gc => s.gcReleased.foldl finiUcontext k
  | e => match s.creates e with
    | some c => k.vnew c
    | none => k

end Stacks

inductive SizedEvent where
  | lib (e : Event)
  | setStacksize (v : Nat)
  deriving DecidableEq, Repr

def sizedStep (D : Diag) (p : St × Stacks) : SizedEvent → Option (St × Stacks)
  | .lib e => (p.1.step D e).map fun s' => (s', p.2.after p.1 e)
  | .setStacksize v => if p.1.mayCall then some (p.1, p.2.setStacksize v) else none

/-- A mapped stack has the size that `ss_size` says, and so had every stack that
was unmapped. -/
structure StacksOk (k : Stacks) : Prop where
  size : ∀ c m, k.stack c = some m → k.ssSize c = m
  unmaps : ∀ u ∈ k.unmaps, u.2 = u.1

/-- A context that has a stack gets a thread only while `stacksize` is the size
of that stack. -/
def SameSize (p : St × Stacks) : SizedEvent → Prop
  | .lib e => ∀ c ∈ p.1.creates e, ∀ m ∈ p.2.stack c, m = p.2.stacksize
  | .setStacksize _ => True

instance (p : St × Stacks) (e : SizedEvent) : Decidable (SameSize p e) := by
  cases e <;> (unfold SameSize; infer_instance)

section
variable {D : Diag} {k : Stacks} {s : St} {e : Event} {c : Ptr}

theorem stacksOk_fini (h : StacksOk k) : StacksOk (k.finiUcontext c) := by
  unfold Stacks.finiUcontext
  constructor
  · intro x m hx
    by_cases hxc : x = c
    · subst hxc
      cases hk : k.stack x <;> simp [hk] at hx
    · cases hk : k.stack c <;> simp [hk, hxc] at hx ⊢ <;> exact h.size x m hx
  · intro u hu
    cases hk : k.stack c with
    | none => simp only [hk] at hu; exact h.unmaps u hu
    | some m =>
      simp only [hk, List.mem_cons] at hu
      rcases hu with rfl | hu
      · exact h.size c m hk
      · exact h.unmaps u hu

theorem stacksOk_gc {cs : List Ptr} (h : StacksOk k) : StacksOk (cs.foldl Stacks.finiUcontext k) := by
  induction cs generalizing k with
  | nil => exact h
  | cons c cs ih => exact ih (stacksOk_fini h)

/-- A thread in a context without a stack gets one of the right size; in a
context with a stack it must have it already. -/
theorem stacksOk_vnew (h : StacksOk k) :
    StacksOk (k.vnew c) ↔ ∀ m ∈ k.stack c, m = k.stacksize := by
  cases hk : k.stack c with
  | none =>
    refine ⟨fun _ m hm => absurd hm (by simp), fun _ => ⟨fun x m hx => ?_, fun u hu => ?_⟩⟩
    · by_cases hxc : x = c
      · subst hxc
        simpa [Stacks.vnew, hk] using hx
      · have hx : k.stack x = some m := by simpa [Stacks.vnew, hk, hxc] using hx
        simpa [Stacks.vnew, hk, hxc] using h.size x m hx
    · exact h.unmaps u (by simpa [Stacks.vnew, hk] using hu)
  | some n =>
    constructor
    · intro h' m hm
      cases hm
      have := h'.size c n (by simp [Stacks.vnew, hk])
      simpa [Stacks.vnew, hk] using this.symm
    · intro hm
      have hn : n = k.stacksize := hm n rfl
      refine ⟨fun x m hx => ?_, fun u hu => ?_⟩
      · replace hx : k.stack x = some m := by simpa [Stacks.vnew, hk] using hx
        by_cases hxc : x = c
        · subst hxc
          cases hk.symm.trans hx
          simpa [Stacks.vnew, hk] using hn.symm
        · simpa [Stacks.vnew, hk, hxc] using h.size x m hx
      · exact h.unmaps u (by simpa [Stacks.vnew, hk] using hu)

theorem stacksOk_after (h : StacksOk k) :
    StacksOk (k.after s e) ↔ ∀ c ∈ s.creates e, ∀ m ∈ k.stack c, m = k.stacksize := by
  unfold Stacks.after
  split
  · exact ⟨fun _ c hc => absurd hc (by simp [creates]), fun _ => stacksOk_gc h⟩
  · cases hc : s.creates e with
    | none => exact ⟨fun _ c hc => absurd hc (by simp), fun _ => h⟩
    | some c =>
      rw [show StacksOk _ ↔ _ from stacksOk_vnew h]
      simp

/-- One step keeps the sizes right exactly when it meets the condition. -/
theorem stacksOk_step {p p' : St × Stacks} {l : SizedEvent} (h : StacksOk p.2)
    (hs : sizedStep D p l = some p') : StacksOk p'.2 ↔ SameSize p l := by
  cases l with
  | lib e =>
    obtain ⟨s', -, rfl⟩ := Option.map_eq_some_iff.1 hs
    exact stacksOk_after h
  | setStacksize v =>
    simp only [sizedStep] at hs
    split at hs
    · cases hs
      exact ⟨fun _ => trivial, fun _ => ⟨h.size, h.unmaps⟩⟩
    · cases hs

end

theorem stacks_sized {D : Diag} {objs : Objs} {now : Nat} {es : List SizedEvent} {p : St × Stacks}
    (hr : exec (sizedStep D) (St.init objs now, .init) es = some p) :
    (∀ pre post u, es = pre ++ post →
      exec (sizedStep D) (St.init objs now, .init) pre = some u → StacksOk u.2) ↔
    Along (sizedStep D) SameSize (St.init objs now, .init) es :=
  exec_inv_iff (I := fun p => StacksOk p.2) (J := fun _ => True) (B := fun _ _ => True)
    (fun _ _ _ _ _ => trivial) (fun _ _ _ _ _ h hs => stacksOk_step h hs) trivial
    ⟨by simp [Stacks.init], by simp [Stacks.init]⟩
    (along_of_forall (C := fun _ => True) fun _ _ => trivial) hr

/-- A thread runs and exits; another one gets its context. -/
def reusedStack (between : List SizedEvent) : List SizedEvent :=
  [.lib (.call (.spawn 0)), .lib (.tick 10), .lib .sift, .lib .next, .lib (.exit false)] ++ between
    ++ [.lib (.call (.spawn 0))]

theorem stacks_sized_reused : ∃ p,
    exec (sizedStep .sample) (St.init .sample 0, .init) (reusedStack []) = some p ∧
    p.2.stack 0 = some STACKSIZE ∧ StacksOk p.2 := by
  obtain ⟨p, hp⟩ := Option.isSome_iff_exists.1
    (show (exec (sizedStep .sample) (St.init .sample 0, .init) (reusedStack [])).isSome by decide)
  refine ⟨p, hp, fact_of_map hp (f := fun p => p.2.stack 0) (by decide), ?_⟩
  exact (stacks_sized hp).2 (along_of_decide (by decide)) _ [] p (by simp) hp

/-- In between the program asks for stacks twice as large: the second thread has
half of its stack outside the mapping. -/
theorem stacks_resized : ∃ p,
    exec (sizedStep .sample) (St.init .sample 0, .init)
      (reusedStack [.setStacksize (STACKSIZE * 2)]) = some p ∧
    p.2.stack 0 = some STACKSIZE ∧ p.2.ssSize 0 = STACKSIZE * 2 ∧ ¬ StacksOk p.2 := by
  obtain ⟨p, hp⟩ := Option.isSome_iff_exists.1
    (show (exec (sizedStep .sample) (St.init .sample 0, .init)
      (reusedStack [.setStacksize (STACKSIZE * 2)])).isSome by decide)
  have hm := fact_of_map hp (f := fun p => p.2.stack 0) (a := some STACKSIZE) (by decide)
  have hs := fact_of_map hp (f := fun p => p.2.ssSize 0) (a := STACKSIZE * 2) (by decide)
  refine ⟨p, hp, hm, hs, fun h => ?_⟩
  have := (h.size 0 STACKSIZE hm).symm.trans hs
  revert this
  decide

end Mnthr

import Mnthr.Core.Slots
import Mnthr.L3Micro.GcLists

/-!
# `mnthr_gc` on the array `ctxes`

`St.gc` says which contexts `mnthr_gc` takes out of `ctxes`. Here is the function
on the slots of the array: the first loop clears slots under its iterator and
links the pinned contexts, the second one compacts. `gcSweep_eq` says what the
first loop does, assertions included; `gcRun_gc`: the two agree.
-/
namespace Mnthr
open St

/-- The first loop under way: the contexts, the slots of `ctxes`, `tmp_list` with
the links, and `res`. -/
structure GcSweep where
  st : St
  slots : List (Option Ptr)
  tmp : Links Ptr × Dtqueue Ptr
  res : Nat

/-- mirrors src/mnthr.c:841-860, at slot `i`; `free` is the head of `free_list`.
`none` is a failed assertion, or a NULL slot. -/
def gcVisit (free : Dtqueue Ptr) (g : GcSweep) (i : Nat) : Option GcSweep :=
  match g.slots[i]? with
  | some (some c) =>
    if free.Orphan g.tmp.1 c then some g
    else if (g.st.ctx c).id ≠ -1 then none
    else if 0 < (g.st.ctx c).abac then
      some { g with tmp := Dtqueue.enqueue (g.tmp.1.clear c, g.tmp.2) c }
    else (g.st.ctxFini c).map fun s1 =>
      { g with st := s1, slots := g.slots.set i none, res := g.res + 1 }
  | _ => none

/-- What `mnthr_gc` leaves and returns. -/
structure GcResult where
  st : St
  free : FreeQ
  slots : List (Option Ptr)
  res : Nat

/-- mirrors src/mnthr.c:828-892 -/
def St.gcRun (s : St) (h : FreeQ) (slots : List (Option Ptr)) : Option GcResult :=
  (exec (gcVisit h.list) ⟨s, slots, (h.links, .empty), 0⟩
      (List.range' 0 slots.length)).bind fun g =>
    (gcMove (slots.length + 1) g.tmp .empty g.tmp.2.head).map fun free =>
      ⟨g.st, free, compact g.slots, g.res⟩

/-- The first loop clears the slot of `c`: `c` is linked, and not pinned. -/
def St.collects (s : St) (free : Dtqueue Ptr) (L : Links Ptr) (c : Ptr) : Bool :=
  decide (¬ free.Orphan L c) && (s.ctx c).abac == 0

section
variable {s s' : St} {h : FreeQ} {c : Ptr} {L : Links Ptr} {F : Dtqueue Ptr}

/-! ## One context is released -/

/-- What the release of `c` leaves alone. -/
structure FiniFrame (c : Ptr) (s s' : St) : Prop where
  abac : ∀ x, (s'.ctx x).abac = (s.ctx x).abac
  id : ∀ x, x ≠ c → (s'.ctx x).id = (s.ctx x).id
  ctxes : s'.ctxes = s.ctxes.erase c

theorem ctxFini_frame (hs : s.ctxFini c = some s') : FiniFrame c s s' := by
  unfold ctxFini at hs
  split at hs
  · cases hs
  · obtain ⟨s1, h1, rfl⟩ := Option.map_eq_some_iff.1 hs
    obtain ⟨s2, h2, rfl⟩ := Option.map_eq_some_iff.1 h1
    obtain ⟨hc, hkeep⟩ := resumeWaitqN_frame h2
    refine ⟨fun x => ?_, fun x hx => ?_, congrArg (List.erase · c) hc⟩
    · have := hkeep Ctx.abac (fun _ _ _ => rfl)
      by_cases hx : x = c
      · subst hx
        simpa [setCtx, Ctx.cleared] using this x
      · simpa [setCtx, hx] using this x
    · simpa [setCtx, hx] using hkeep Ctx.id (fun _ _ _ => rfl) x

/-- The threads in a wait queue can be woken when the caller is not one of them. -/
theorem resumeWaitqN_some {q : Waitq} (n : Nat) (hme : ∀ t ∈ s.wq.queue q, s.me ≠ some t) :
    ∃ s', resumeWaitqN n s q = some s' ∧ s'.me = s.me ∧ s'.pc = s.pc ∧
      ∀ q' t, t ∈ s'.wq.queue q' → t ∈ s.wq.queue q' := by
  induction n generalizing s with
  | zero => exact ⟨s, rfl, rfl, rfl, fun _ _ ht => ht⟩
  | succ n ih =>
    cases hq : s.wq.queue q with
    | nil =>
      obtain ⟨s', hs', hrest⟩ := ih hme
      exact ⟨s', by simp only [resumeWaitqN, resumeWaitqOne, hq, Option.bind_some, hs'], hrest⟩
    | cons t rest =>
      have hne : s.me ≠ some t := hme t (by simp [hq])
      have hone : s.resumeWaitqOne q = some (s.woken q t rest) := by
        simp only [resumeWaitqOne, hq, setResume, woken]
        rw [if_neg (show ¬ (s.dequeue q t rest).me = some t from hne)]
        split
        · rename_i hf
          rw [if_pos (show (s.ctx t).f = none from hf)]
        · rename_i hf
          rw [if_neg (show ¬ (s.ctx t).f = none from hf)]
          rfl
      have hsub : ∀ q' u, u ∈ (s.woken q t rest).wq.queue q' → u ∈ s.wq.queue q' := by
        intro q' u hu
        rw [woken_queue] at hu
        by_cases hqq : q' = q
        · subst hqq
          rw [Function.update_self] at hu
          rw [hq]
          exact List.mem_cons_of_mem _ hu
        · rwa [Function.update_of_ne hqq] at hu
      obtain ⟨-, -, -, hpc, hm⟩ := woken_frame (s := s) q t rest
      obtain ⟨s', hs', h1, h2, h3⟩ := ih (s := s.woken q t rest) fun u hu => by
        rw [hm]
        exact hme u (hsub q u hu)
      exact ⟨s', by simp only [resumeWaitqN, hone, Option.bind_some, hs'], h1.trans hm,
        h2.trans hpc, fun q' u hu => hsub q' u (h3 q' u hu)⟩

/-- A release passes the assertions: neither the context nor a thread that waits
for it runs. -/
theorem ctxFini_some (hr : s.pc.runs ≠ some c) (hme : ∀ t ∈ s.wq.queue (.ctx c), s.me ≠ some t) :
    ∃ s', s.ctxFini c = some s' ∧ s'.me = s.me ∧ s'.pc = s.pc ∧
      ∀ q t, t ∈ s'.wq.queue q → t ∈ s.wq.queue q := by
  obtain ⟨s1, h1, hm, hp, hq⟩ := resumeWaitqN_some (s := s.setCtx c (s.ctx c).cleared) (q := .ctx c)
    (s.wq.queue (.ctx c)).length hme
  have hall : (s.setCtx c (s.ctx c).cleared).resumeWaitqAll (.ctx c) = some s1 := h1
  let s2 := { s1 with wq := ((s1.wq.setQueue (.ctx c) []).leave c).setHosting c none }
  refine ⟨{ s2.setCtx c { s2.ctx c with rc := 0 } with ctxes := s2.ctxes.erase c },
    by rw [ctxFini, if_neg hr, finalize, hall]; rfl, hm, hp, fun q t ht => hq q t ?_⟩
  have ht : t ∈ (s1.wq.setQueue (.ctx c) []).queue q := leave_subset ht
  by_cases hqc : q = .ctx c
  · subst hqc
    simp [WaitQs.setQueue] at ht
  · simpa [WaitQs.setQueue, hqc] using ht

theorem ctxFiniAll_some {cs : List Ptr} (hr : ∀ c ∈ cs, s.pc.runs ≠ some c)
    (hme : ∀ c ∈ cs, ∀ t ∈ s.wq.queue (.ctx c), s.me ≠ some t) :
    ∃ s', ctxFiniAll cs s = some s' := by
  induction cs generalizing s with
  | nil => exact ⟨s, rfl⟩
  | cons c cs ih =>
    obtain ⟨s1, h1, hm, hp, hq⟩ := ctxFini_some (hr c (List.mem_cons_self ..))
      (hme c (List.mem_cons_self ..))
    obtain ⟨s', hs'⟩ := ih (s := s1) (fun x hx => hp ▸ hr x (List.mem_cons_of_mem _ hx))
      fun x hx t ht => hm ▸ hme x (List.mem_cons_of_mem _ hx) t (hq _ t ht)
    exact ⟨s', by rw [ctxFiniAll, h1, Option.bind_some, hs']⟩

/-! ## The first loop -/

theorem collects_congr (h : ∀ x, (s'.ctx x).abac = (s.ctx x).abac) :
    s'.collects F L = s.collects F L := by
  funext x
  simp only [collects, h x]

theorem gcCollect_congr (h : ∀ x, (s'.ctx x).abac = (s.ctx x).abac) {cs : List Ptr}
    {p : Links Ptr × Dtqueue Ptr} : s'.gcCollect F cs p = s.gcCollect F cs p := by
  induction cs generalizing p with
  | nil => rfl
  | cons c cs ih => simp only [gcCollect, h c, ih]

/-- The first loop, over the rest of the array. The links of the contexts that
come are still those of `L`. -/
theorem gcSweep_eq {rest acc : List Ptr} {d : List (Option Ptr)} {p : Links Ptr × Dtqueue Ptr}
    {n : Nat} (hp : TmpList L p acc rest) :
    exec (gcVisit F) ⟨s, d ++ rest.map some, p, n⟩ (List.range' d.length rest.length) =
      if ∀ x ∈ rest, ¬ F.Orphan L x → (s.ctx x).id = -1 then
        (ctxFiniAll (rest.filter (s.collects F L)) s).map fun s1 =>
          ⟨s1, d ++ rest.map fun x => if s.collects F L x then none else some x,
            s.gcCollect F rest p, n + (rest.filter (s.collects F L)).length⟩
      else none := by
  induction rest generalizing s acc d p n with
  | nil => simp [exec, ctxFiniAll, gcCollect]
  | cons c cs ih =>
    have horph := hp.orphan_iff F
    have hat : (d ++ (c :: cs).map some)[d.length]? = some (some c) := slot_at rfl
    -- the array, once `c` has been seen
    have next : ∀ o : Option Ptr, (d ++ [o]).length = d.length + 1 := by simp
    rw [List.length_cons, List.range'_succ, exec, gcVisit]
    simp only [hat, horph]
    by_cases ho : F.Orphan L c
    · have := ih (s := s) (d := d ++ [some c]) (n := n) hp.skip
      rw [next] at this
      simpa [ho, collects, gcCollect, horph] using this
    by_cases hid : (s.ctx c).id = -1
    swap
    · simp [ho, hid]
    by_cases ha : 0 < (s.ctx c).abac
    · have := ih (s := s) (d := d ++ [some c]) (n := n) hp.keep
      rw [next] at this
      simpa [ho, hid, ha, ha.ne', collects, gcCollect, horph] using this
    · have ha0 : (s.ctx c).abac = 0 := by omega
      cases hfini : s.ctxFini c with
      | none => simp [ho, hid, ha0, collects, ctxFiniAll, hfini]
      | some s1 =>
        have hfr := ctxFini_frame hfini
        have hids : (∀ x ∈ cs, ¬ F.Orphan L x → (s1.ctx x).id = -1) ↔
            ∀ x ∈ cs, ¬ F.Orphan L x → (s.ctx x).id = -1 := by
          refine forall₂_congr fun x hx => ?_
          rw [hfr.id x fun hxc => (List.nodup_cons.1 hp.nodup).1 (hxc ▸ hx)]
        have hcol : s1.gcCollect F cs p = s.gcCollect F cs p := gcCollect_congr hfr.abac
        have := ih (s := s1) (d := d ++ [none]) (n := n + 1) hp.skip
        rw [next, collects_congr hfr.abac, hcol] at this
        simpa [ho, hid, ha0, collects, gcCollect, horph, ctxFiniAll, hfini, set_at, hids,
          Nat.add_assoc, Nat.add_comm 1] using this

/-! ## The whole function -/

theorem reduceOption_collects (l : List Ptr) (p : Ptr → Bool) :
    (l.map fun x => if p x then none else some x).reduceOption = l.filter fun x => !p x := by
  induction l with
  | nil => rfl
  | cons c cs ih => cases hc : p c <;> simp [hc, ih]

/-- `mnthr_gc` on an array without NULL slots. -/
theorem gcRun_eq {l : List Ptr} (hnd : l.Nodup) :
    ∃ free', gcMove (l.length + 1) (s.gcCollect h.list l (h.links, .empty)) .empty
        (s.gcCollect h.list l (h.links, .empty)).2.head = some free' ∧
      s.gcRun h (l.map some) =
        if ∀ x ∈ l, ¬ h.list.Orphan h.links x → (s.ctx x).id = -1 then
          (ctxFiniAll (l.filter (s.collects h.list h.links)) s).map fun s1 =>
            ⟨s1, free', (l.filter fun x => !s.collects h.list h.links x).map some,
              (l.filter (s.collects h.list h.links)).length⟩
        else none := by
  have htmp := tmpList_start (L := h.links) hnd
  obtain ⟨free', hmove, -⟩ := gcMove_spec (n := l.length)
    (gcCollect_spec (s := s) (F := h.list) htmp).1
  refine ⟨free', hmove, ?_⟩
  have hsweep := gcSweep_eq (s := s) (F := h.list) (d := []) (n := 0) htmp
  simp only [List.nil_append, List.length_nil] at hsweep
  rw [gcRun, List.length_map, hsweep]
  split
  · cases ctxFiniAll (l.filter (s.collects h.list h.links)) s with
    | none => rfl
    | some s1 => simp [hmove, compact_spec, reduceOption_collects]
  · rfl

theorem ctxFiniAll_ctxes {cs : List Ptr} (hs : ctxFiniAll cs s = some s') :
    s'.ctxes = s.ctxes.diff cs := by
  induction cs generalizing s with
  | nil => cases hs; rw [List.diff_nil]
  | cons c cs ih =>
    obtain ⟨s1, h1, h2⟩ := Option.bind_eq_some_iff.1 hs
    rw [ih h2, (ctxFini_frame h1).ctxes, List.diff_cons]

/-- The model of `mnthr_gc` says what the function does. -/
theorem gcRun_gc (hf : FreeLinks s h) (hnd : s.ctxes.Nodup) (hs : s.gc = some s') :
    ∃ r, s.gcRun h (s.ctxes.map some) = some r ∧ r.slots = s'.ctxes.map some ∧
      s.gcLists h = some r.free ∧
      s' = { r.st with freeList := s'.freeList, gcRest := s'.gcRest } := by
  obtain ⟨free', hmove, hrun⟩ := gcRun_eq (s := s) (h := h) hnd
  have hcol : s.ctxes.filter (s.collects h.list h.links) = s.gcReleased := by
    rw [gcReleased, gcSeen, List.filter_filter]
    refine List.filter_congr fun x hx => ?_
    simp only [collects, hf.orphan_iff hx, not_not, Bool.and_comm]
  unfold gc at hs
  split at hs
  · rename_i hid
    obtain ⟨s1, h1, rfl⟩ := Option.map_eq_some_iff.1 hs
    rw [if_pos, hcol, h1] at hrun
    · refine ⟨_, hrun, ?_, hmove, rfl⟩
      refine congrArg (List.map some) ?_
      show _ = s1.ctxes
      rw [ctxFiniAll_ctxes h1, hnd.sdiff_eq_filter, ← hcol]
      refine List.filter_congr fun x hx => ?_
      simp [hx]
    · intro x hx ho
      refine hid x (List.mem_filter.2 ⟨hx, decide_eq_true ?_⟩)
      exact not_not.1 fun hl => ho ((hf.orphan_iff hx).2 hl)
  · cases hs

end
end Mnthr

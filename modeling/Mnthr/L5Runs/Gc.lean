import Mnthr.L2Sched.Machine
import Mnthr.L3Micro.GcSweep

/-!
# Dead contexts and `mnthr_gc`

`gc_conserves`: the pinned contexts are back in `free_list` after `mnthr_gc` iff
there is at most one of them. Of two or more the first alone comes back; the
others stay in `ctxes`, where nobody will find them.

`gc_compacts`: the array `ctxes` loses the contexts of `free_list` that are not
pinned, and nothing else, and keeps its order.
-/
namespace Mnthr
open St

/-- The pinned contexts of `free_list`. -/
def St.pinnedFree (s : St) : List Ptr := s.freeList.filter fun c => decide (0 < (s.ctx c).abac)

/-- `free_list` holds the pinned contexts, each once, and no other context of
`ctxes` is dead. -/
structure Conserved (pinned : List Ptr) (s : St) (h : FreeQ) : Prop where
  list : ∃ l, h.list.Holds h.links l ∧ l.Perm pinned
  dead : ∀ c ∈ s.ctxes, (s.ctx c).f = none → c ∈ pinned

section
variable {s s' : St} {h h' : FreeQ} {c : Ptr}

/-- Where all dead contexts are in `free_list`, nothing is left over from an
earlier collection, and the pinned ones are those of `free_list`. -/
theorem gcPinned_perm (hf : FreeLinks s h) (hnd : s.ctxes.Nodup)
    (hdead : ∀ c ∈ s.ctxes, (s.ctx c).f = none → c ∈ s.freeList) :
    s.gcPinned.Perm s.pinnedFree := by
  have hrest : ∀ c, c ∉ s.gcRest := by
    intro c hc
    obtain ⟨hcc, hfn⟩ := hf.dead c (.inr hc)
    exact (List.nodup_append.1 hf.nodup).2.2 c (hdead c hcc hfn) c hc rfl
  have hnd1 : s.gcPinned.Nodup := (hnd.filter _).filter _
  have hnd2 : s.pinnedFree.Nodup := hf.free.nodup.filter _
  refine (List.perm_ext_iff_of_nodup hnd1 hnd2).2 fun c => ?_
  rw [mem_gcPinned, pinnedFree, List.mem_filter, decide_eq_true_eq]
  constructor
  · rintro ⟨⟨-, hl⟩, ha⟩
    exact ⟨hl.resolve_right fun hr => hrest c hr.1, ha⟩
  · intro hx
    obtain ⟨hl, ha⟩ := hx
    exact ⟨⟨(hf.dead c (.inl hl)).1, .inl hl⟩, ha⟩

end

theorem gc_conserves {s s' : St} {h : FreeQ} (hf : FreeLinks s h) (hnd : s.ctxes.Nodup)
    (hdead : ∀ c ∈ s.ctxes, (s.ctx c).f = none → c ∈ s.freeList) (hs : s.gc = some s') :
    ∃ h', s.gcLists h = some h' ∧ (Conserved s.pinnedFree s' h' ↔ s.pinnedFree.length ≤ 1) := by
  obtain ⟨h', hh', hf'⟩ := gcLists_spec hf hnd hs
  obtain ⟨hr, hfree, -⟩ := gc_released hnd hs
  have hperm := gcPinned_perm hf hnd hdead
  refine ⟨h', hh', ?_, ?_⟩
  · rintro ⟨⟨l, hl, hlp⟩, -⟩
    have hlen := hlp.length_eq
    rw [hl.unique hf'.free, hfree, List.length_take] at hlen
    omega
  · intro hle
    rw [← hperm.length_eq] at hle
    refine ⟨⟨s'.freeList, hf'.free, ?_⟩, fun c hc hfn => ?_⟩
    · rw [hfree, List.take_of_length_le hle]
      exact hperm
    · obtain ⟨hcc, hnr⟩ := (hr.ctxes c).1 hc
      rw [hr.f c hnr] at hfn
      have hl := hdead c hcc hfn
      refine List.mem_filter.2 ⟨hl, decide_eq_true ?_⟩
      by_contra ha
      exact hnr (mem_gcReleased.2 ⟨⟨hcc, .inl hl⟩, by omega⟩)

/-- Two threads, pinned or not, run and exit. -/
def twoExits (pins : List Event) : List Event :=
  [.call (.spawn 0), .call (.spawn 0)] ++ pins ++
    [.tick 10, .sift, .next, .exit false, .next, .exit false]

/-- What `gc_conserves` asks for, in a state that can be computed. -/
def St.settled (s : St) : Prop :=
  s.gcRest = [] ∧ s.freeList.Nodup ∧ s.ctxes.Nodup ∧
    (∀ c ∈ s.freeList, c ∈ s.ctxes ∧ (s.ctx c).f = none) ∧
    ∀ c ∈ s.ctxes, (s.ctx c).f = none → c ∈ s.freeList

instance (s : St) : Decidable s.settled := by unfold St.settled; infer_instance

theorem gc_conserves_onePinned : ∃ s s' h',
    Reaches .sample .sample 0 (twoExits [.call (.incabac 1)]) s ∧ s.gc = some s' ∧
    s.gcLists (.ofList s.freeList) = some h' ∧ s.pinnedFree = [1] ∧ Conserved [1] s' h' := by
  obtain ⟨s, hs⟩ := Option.isSome_iff_exists.1
    (show (sampleRun (twoExits [.call (.incabac 1)])).isSome by decide)
  obtain ⟨s', hs'⟩ := Option.isSome_iff_exists.1
    (sampleRun_fact hs (f := fun s => s.gc.isSome) (a := true) (by decide))
  have hp := sampleRun_fact hs (f := pinnedFree) (a := [1]) (by decide)
  have hset : s.settled := of_decide_eq_true
    (sampleRun_fact hs (f := fun s => decide s.settled) (a := true) (by decide))
  obtain ⟨hr, hfn, hcn, hd, hdead⟩ := hset
  obtain ⟨h', hh', hiff⟩ := gc_conserves (freeLinks_ofList hr hfn hd) hcn hdead hs'
  rw [hp] at hiff
  exact ⟨s, s', h', hs, hs', hh', hp, hiff.2 (by decide)⟩

/-- Both threads are pinned: after `mnthr_gc` context 1 is dead, still in
`ctxes`, and not in `free_list`. -/
theorem gc_loses_twoPinned : ∃ s s' h',
    Reaches .sample .sample 0 (twoExits [.call (.incabac 0), .call (.incabac 1)]) s ∧
    FreeLinks s (.ofList s.freeList) ∧ (∀ c ∈ s.ctxes, (s.ctx c).f = none → c ∈ s.freeList) ∧
    s.gc = some s' ∧ s.gcLists (.ofList s.freeList) = some h' ∧
    h'.list.Holds h'.links [0] ∧ 1 ∈ s'.ctxes ∧ (s'.ctx 1).f = none ∧
    ¬ Conserved s.pinnedFree s' h' := by
  obtain ⟨s, hs⟩ := Option.isSome_iff_exists.1
    (show (sampleRun (twoExits [.call (.incabac 0), .call (.incabac 1)])).isSome by decide)
  obtain ⟨s', hs'⟩ := Option.isSome_iff_exists.1
    (sampleRun_fact hs (f := fun s => s.gc.isSome) (a := true) (by decide))
  have hp := sampleRun_fact hs (f := pinnedFree) (a := [0, 1]) (by decide)
  have hset : s.settled := of_decide_eq_true
    (sampleRun_fact hs (f := fun s => decide s.settled) (a := true) (by decide))
  obtain ⟨hr, hfn, hcn, hd, hdead⟩ := hset
  have hf := freeLinks_ofList hr hfn hd
  obtain ⟨h', hh', hf'⟩ := gcLists_spec hf hcn hs'
  have hafter : ∀ {α : Type} {f : St → α} {a : α},
      (sampleRun (twoExits [.call (.incabac 0), .call (.incabac 1)])).map (fun s => s.gc.map f) =
        some (some a) → f s' = a := by
    intro α f a ha
    have := sampleRun_fact hs (f := fun s => s.gc.map f) ha
    exact fact_of_map hs' this
  have hl := hafter (f := fun s => s.freeList) (a := [0]) (by decide)
  refine ⟨s, s', h', hs, hf, hdead, hs', hh', hl ▸ hf'.free, ?_, ?_, ?_⟩
  · rw [hafter (f := fun s => s.ctxes) (a := [0, 1]) (by decide)]
    decide
  · exact hafter (f := fun s => (s.ctx 1).f) (by decide)
  · rintro ⟨⟨l, hl', hlp⟩, -⟩
    have hlen := hlp.length_eq
    rw [hl'.unique hf'.free, hl, hp] at hlen
    cases hlen

/-! ## The array -/

/-- `mnthr_gc` on an array `l` of contexts. The assertions that it passes are
those of lines 845 and 850, and those of `mnthr_ctx_fini` and `set_resume`: a
context that is released does not run, nor does a thread that waits for it. -/
theorem gc_compacts {s : St} {h : FreeQ} {l : List Ptr} (hnd : l.Nodup)
    (hlinked : ∀ c ∈ l, ¬ h.list.Orphan h.links c ↔ c ∈ s.freeList) :
    (∀ r, s.gcRun h (l.map some) = some r →
      r.slots = (l.filter fun c => decide (¬ (c ∈ s.freeList ∧ (s.ctx c).abac = 0))).map some ∧
      r.res = (l.filter fun c => decide (c ∈ s.freeList ∧ (s.ctx c).abac = 0)).length ∧
      ((∀ c ∈ s.freeList, (s.ctx c).f = none) →
        ∀ c ∈ l, (s.ctx c).f ≠ none ∨ 0 < (s.ctx c).abac → some c ∈ r.slots)) ∧
    ((∀ c ∈ l, c ∈ s.freeList → (s.ctx c).id = -1 ∧
        ((s.ctx c).abac = 0 →
          s.pc.runs ≠ some c ∧ ∀ t ∈ s.wq.queue (.ctx c), s.me ≠ some t)) →
      ∃ r, s.gcRun h (l.map some) = some r) := by
  obtain ⟨free', -, hrun⟩ := gcRun_eq (s := s) (h := h) hnd
  have hcol : ∀ c ∈ l, s.collects h.list h.links c =
      decide (c ∈ s.freeList ∧ (s.ctx c).abac = 0) := by
    intro c hc
    have hdec : decide (¬ h.list.Orphan h.links c) = decide (c ∈ s.freeList) :=
      decide_eq_decide.2 (hlinked c hc)
    rw [collects, hdec]
    by_cases hm : c ∈ s.freeList <;> by_cases ha : (s.ctx c).abac = 0 <;> simp [hm, ha]
  have hin : l.filter (s.collects h.list h.links) =
      l.filter fun c => decide (c ∈ s.freeList ∧ (s.ctx c).abac = 0) :=
    List.filter_congr hcol
  have hout : (l.filter fun c => !s.collects h.list h.links c) =
      l.filter fun c => decide (¬ (c ∈ s.freeList ∧ (s.ctx c).abac = 0)) := by
    refine List.filter_congr fun c hc => ?_
    rw [hcol c hc, decide_not]
  constructor
  · intro r hr
    rw [hrun] at hr
    split at hr
    · obtain ⟨s1, -, rfl⟩ := Option.map_eq_some_iff.1 hr
      refine ⟨congrArg (List.map some) hout, congrArg List.length hin, fun hdead c hc hlive => ?_⟩
      refine List.mem_map_of_mem (List.mem_filter.2 ⟨hc, ?_⟩)
      have hkeep : ¬ (c ∈ s.freeList ∧ (s.ctx c).abac = 0) := by
        intro hf
        rcases hlive with hl | hl
        · exact hl (hdead c hf.1)
        · omega
      rw [hcol c hc, decide_eq_false hkeep]
      rfl
    · cases hr
  · intro hok
    have hof : ∀ c ∈ l.filter (s.collects h.list h.links),
        s.pc.runs ≠ some c ∧ ∀ t ∈ s.wq.queue (.ctx c), s.me ≠ some t := by
      intro c hc
      rw [hin] at hc
      obtain ⟨hc, hf⟩ := List.mem_filter.1 hc
      have hf := of_decide_eq_true hf
      exact (hok c hc hf.1).2 hf.2
    obtain ⟨s1, h1⟩ := ctxFiniAll_some (fun c hc => (hof c hc).1) fun c hc => (hof c hc).2
    rw [if_pos fun c hc ho => (hok c hc ((hlinked c hc).1 ho)).1, h1] at hrun
    exact ⟨_, hrun⟩

/-- Context 0 is dead, 1 is dead and pinned, 2 has a thread that was never run. -/
theorem gc_compacts_onePinned : ∃ s r,
    Reaches .sample .sample 0 (twoExits [.call (.incabac 1)] ++ [.call (.newSig 0)]) s ∧
    s.ctxes = [0, 1, 2] ∧ s.gcRun (.ofList s.freeList) (s.ctxes.map some) = some r ∧
    r.slots = [some 1, some 2] ∧ r.res = 1 := by
  let es := twoExits [.call (.incabac 1)] ++ [.call (.newSig 0)]
  obtain ⟨s, hs⟩ := Option.isSome_iff_exists.1 (show (sampleRun es).isSome by decide)
  have hcs := sampleRun_fact hs (f := fun s => s.ctxes) (a := [0, 1, 2]) (by decide)
  have hfree := sampleRun_fact hs (f := fun s => s.freeList) (a := [0, 1]) (by decide)
  have hrest := sampleRun_fact hs (f := fun s => s.gcRest) (a := []) (by decide)
  have habac := sampleRun_fact hs (f := fun s => [0, 1, 2].map fun c => (s.ctx c).abac)
    (a := [0, 1, 0]) (by decide)
  have hdead : ∀ c ∈ s.freeList, c ∈ s.ctxes ∧ (s.ctx c).f = none := of_decide_eq_true
    (sampleRun_fact hs (f := fun s => decide (∀ c ∈ s.freeList, c ∈ s.ctxes ∧ (s.ctx c).f = none))
      (a := true) (by decide))
  have hquiet := of_decide_eq_true (sampleRun_fact hs (f := fun s => decide (∀ c ∈ s.ctxes,
    c ∈ s.freeList → (s.ctx c).id = -1 ∧ ((s.ctx c).abac = 0 →
      s.pc.runs ≠ some c ∧ ∀ t ∈ s.wq.queue (.ctx c), s.me ≠ some t))) (a := true) (by decide))
  have hf := freeLinks_ofList hrest (by rw [hfree]; decide) hdead
  have hlinked : ∀ c ∈ s.ctxes,
      ¬ (FreeQ.ofList s.freeList).list.Orphan (FreeQ.ofList s.freeList).links c ↔
        c ∈ s.freeList := by
    intro c hc
    rw [hf.orphan_iff hc, not_not, linked, hrest]
    simp
  obtain ⟨hres, hret⟩ := gc_compacts (s := s) (h := .ofList s.freeList) (l := s.ctxes)
    (by rw [hcs]; decide) hlinked
  obtain ⟨r, hr⟩ := hret hquiet
  obtain ⟨h1, h2, -⟩ := hres r hr
  simp only [List.map_cons, List.map_nil, List.cons.injEq] at habac
  rw [hcs, hfree] at h1 h2
  refine ⟨s, r, hs, hcs, hr, ?_, ?_⟩
  · simpa [List.filter, habac] using h1
  · simpa [List.filter, habac] using h2

end Mnthr

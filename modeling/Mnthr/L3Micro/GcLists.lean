import Mnthr.Core.Dtqueue
import Mnthr.L3Micro.Decompose

/-!
# The lists of `mnthr_gc`

`St.gc` says what `mnthr_gc` leaves in `free_list` and outside of it. Here are its
two loops as they are written: the first moves the pinned contexts to a list on
the stack that uses the same `free_link`, the second moves them back and follows
the link of the context that it has just put at the tail. `gcLists_spec`: they
leave what `St.gc` says, whatever the number of pinned contexts.
-/
namespace Mnthr
open St

/-- `free_list`, with the `free_link` of all contexts. -/
structure FreeQ where
  links : Links Ptr
  list : Dtqueue Ptr

/-- The contexts of `l` put into an empty `free_list`. -/
def FreeQ.ofList (l : List Ptr) : FreeQ := ⟨(Dtqueue.ofList l).1, (Dtqueue.ofList l).2⟩

/-- mirrors src/mnthr.c:838-860: the first loop, over the rest of `ctxes`, with
`tmp_list`. A context that is released is not looked at again. -/
def St.gcCollect (s : St) (free : Dtqueue Ptr) :
    List Ptr → Links Ptr × Dtqueue Ptr → Links Ptr × Dtqueue Ptr
  | [], p => p
  | c :: cs, p =>
    if free.Orphan p.1 c then s.gcCollect free cs p
    else if 0 < (s.ctx c).abac then s.gcCollect free cs (Dtqueue.enqueue (p.1.clear c, p.2) c)
    else s.gcCollect free cs p

/-- mirrors src/mnthr.c:881-889: the second loop, at the context `x`; `none` when
it takes more than `n` rounds. -/
def gcMove : Nat → Links Ptr × Dtqueue Ptr → Dtqueue Ptr → Option Ptr → Option FreeQ
  | _, p, free, none => some ⟨p.1, free⟩
  | 0, _, _, some _ => none
  | n + 1, p, free, some x =>
    let p1 := Dtqueue.dequeue p
    let r := Dtqueue.enqueue (p1.1.clear x, free) x
    gcMove n (r.1, p1.2) r.2 (r.1.next x)

/-- `free_list` after `mnthr_gc`. -/
def St.gcLists (s : St) (h : FreeQ) : Option FreeQ :=
  let p := s.gcCollect h.list s.ctxes (h.links, .empty)
  gcMove (s.ctxes.length + 1) p .empty p.2.head

/-- The queue `free_list` is the list of the model, what an earlier `mnthr_gc`
left over is linked in its order, and nobody else is linked. -/
structure FreeLinks (s : St) (h : FreeQ) : Prop where
  free : h.list.Holds h.links s.freeList
  rest : h.links.Seg none s.gcRest
  nodup : (s.freeList ++ s.gcRest).Nodup
  dead : ∀ c, c ∈ s.freeList ∨ c ∈ s.gcRest → c ∈ s.ctxes ∧ (s.ctx c).f = none
  out : ∀ c ∈ s.ctxes, c ∉ s.freeList → c ∉ s.gcRest → h.links.Free c

section
variable {D : Diag} {s s' : St} {h : FreeQ} {c : Ptr} {L : Links Ptr}

/-- A state with nothing left over has its queue. -/
theorem freeLinks_ofList (hrest : s.gcRest = []) (hnd : s.freeList.Nodup)
    (hdead : ∀ c ∈ s.freeList, c ∈ s.ctxes ∧ (s.ctx c).f = none) :
    FreeLinks s (.ofList s.freeList) := by
  obtain ⟨hhold, hfree⟩ := Dtqueue.holds_ofList hnd
  refine ⟨hhold, by rw [hrest]; trivial, by simpa [hrest] using hnd, fun c hc => ?_,
    fun c _ hc _ => hfree c hc⟩
  exact hdead c (hc.resolve_right (by simp [hrest]))

/-- The test of `mnthr_gc` is the one of the model. -/
theorem FreeLinks.orphan_iff (hf : FreeLinks s h) (hc : c ∈ s.ctxes) :
    h.list.Orphan h.links c ↔ ¬ s.linked c := by
  constructor
  · rintro ho (hm | ⟨hm, hl⟩)
    · exact hf.free.not_orphan hm ho
    · exact hf.rest.not_free hm hl ho.1
  · intro hl
    obtain ⟨hm, hr⟩ := not_or.1 hl
    refine hf.free.orphan hm ?_
    by_cases hg : c ∈ s.gcRest
    · have hlen : s.gcRest.length = 1 := by
        have := List.length_pos_of_mem hg
        have : ¬ 2 ≤ s.gcRest.length := fun h2 => hr ⟨hg, h2⟩
        omega
      obtain ⟨x, hx⟩ := List.length_eq_one_iff.1 hlen
      have hseg := hf.rest
      rw [hx] at hseg hg
      rw [List.mem_singleton.1 hg]
      exact ⟨hseg.1, hseg.2.1⟩
    · exact hf.out c hc hm hg

/-- The first loop under way: `tmp_list` holds `a`, the contexts `cs` are still to
come, and the links of who is not in `tmp_list` are the old ones. -/
structure TmpList (L : Links Ptr) (p : Links Ptr × Dtqueue Ptr) (a cs : List Ptr) : Prop where
  holds : p.2.Holds p.1 a
  same : ∀ x, x ∉ a → L.Same p.1 x
  nodup : cs.Nodup
  fresh : ∀ x ∈ cs, x ∉ a

theorem tmpList_start {cs : List Ptr} (hnd : cs.Nodup) : TmpList L (L, .empty) [] cs :=
  ⟨Dtqueue.holds_empty _, fun _ _ => ⟨rfl, rfl⟩, hnd, fun _ _ => List.not_mem_nil⟩

namespace TmpList
variable {p : Links Ptr × Dtqueue Ptr} {a cs : List Ptr}

theorem orphan_iff (hp : TmpList L p a (c :: cs)) (q : Dtqueue Ptr) :
    q.Orphan p.1 c ↔ q.Orphan L c := by
  have hs := hp.same c (hp.fresh c List.mem_cons_self)
  rw [Dtqueue.Orphan, Dtqueue.Orphan, Links.Free, Links.Free, hs.1, hs.2]

theorem skip (hp : TmpList L p a (c :: cs)) : TmpList L p a cs :=
  ⟨hp.holds, hp.same, (List.nodup_cons.1 hp.nodup).2,
    fun x hx => hp.fresh x (List.mem_cons_of_mem _ hx)⟩

/-- A pinned context is cleared and put at the tail. -/
theorem keep (hp : TmpList L p a (c :: cs)) :
    TmpList L (Dtqueue.enqueue (p.1.clear c, p.2) c) (a ++ [c]) cs := by
  obtain ⟨hc, hnd⟩ := List.nodup_cons.1 hp.nodup
  have hca := hp.fresh c List.mem_cons_self
  have hclear : p.2.Holds (p.1.clear c) a :=
    hp.holds.congr fun x hx => Links.clear_same fun hxc => hca (hxc ▸ hx)
  refine ⟨hclear.enqueue hca, fun x hx => ?_, hnd, fun x hx hm => ?_⟩
  · have hxc : x ≠ c := fun hxc => hx (by simp [hxc])
    have hxa : x ∉ a := fun hm => hx (List.mem_append_left _ hm)
    exact ((hp.same x hxa).trans (Links.clear_same hxc)).trans
      (Dtqueue.enqueue_same hclear hxa hxc)
  · rcases List.mem_append.1 hm with hm | hm
    · exact hp.fresh x (List.mem_cons_of_mem _ hx) hm
    · exact hc (List.mem_singleton.1 hm ▸ hx)

end TmpList

/-- The first loop puts the pinned contexts in `tmp_list`, in order. -/
theorem gcCollect_spec {cs a : List Ptr} {p : Links Ptr × Dtqueue Ptr} {F : Dtqueue Ptr}
    (hp : TmpList L p a cs) :
    let r := s.gcCollect F cs p
    let l := a ++ cs.filter fun x => decide (¬ F.Orphan L x) && decide (0 < (s.ctx x).abac)
    r.2.Holds r.1 l ∧ ∀ x, x ∉ l → L.Same r.1 x := by
  induction cs generalizing p a with
  | nil => simpa [gcCollect] using ⟨hp.holds, hp.same⟩
  | cons c cs ih =>
    have horph := hp.orphan_iff F
    by_cases ho : F.Orphan L c
    · have := ih hp.skip
      simpa [gcCollect, horph, ho] using this
    by_cases ha : 0 < (s.ctx c).abac
    · have := ih hp.keep
      simpa [gcCollect, horph, ho, ha] using this
    · have := ih hp.skip
      simpa [gcCollect, horph, ho, ha] using this

/-- The second loop moves the first context, and ends. -/
theorem gcMove_spec {n : Nat} {l : List Ptr} {p : Links Ptr × Dtqueue Ptr} (hp : p.2.Holds p.1 l) :
    ∃ h', gcMove (n + 1) p .empty p.2.head = some h' ∧ h'.list.Holds h'.links (l.take 1) ∧
      h'.links.Seg none (l.drop 1) ∧ ∀ x, x ∉ l → p.1.Same h'.links x := by
  cases l with
  | nil =>
    rw [hp.head]
    exact ⟨⟨p.1, .empty⟩, rfl, Dtqueue.holds_empty _, trivial, fun x _ => ⟨rfl, rfl⟩⟩
  | cons x rest =>
    rw [hp.head]
    have hd := hp.dequeue
    have hxr := (List.nodup_cons.1 hp.nodup).1
    have hone := (Dtqueue.holds_empty ((Dtqueue.dequeue p).1.clear x)).enqueue
      (x := x) List.not_mem_nil
    -- the links of the others are those that `DTQUEUE_DEQUEUE` left
    have hsame : ∀ y, y ≠ x → (Dtqueue.dequeue p).1.Same
        (Dtqueue.enqueue ((Dtqueue.dequeue p).1.clear x, .empty) x).1 y := by
      intro y hy
      exact (Links.clear_same hy).trans
        (Dtqueue.enqueue_same (Dtqueue.holds_empty _) List.not_mem_nil hy)
    have hnext : (Dtqueue.enqueue ((Dtqueue.dequeue p).1.clear x, .empty) x).1.next x = none :=
      hone.seg.2.1
    refine ⟨⟨_, _⟩, ?_, hone, ?_, fun y hy => ?_⟩
    · simp only [List.head?_cons, gcMove, hnext]
    · exact hd.seg.congr fun y hy => hsame y fun hyx => hxr (hyx ▸ hy)
    · obtain ⟨hyx, hyr⟩ := not_or.1 (mt List.mem_cons.2 hy)
      exact (Dtqueue.dequeue_same hp hyr).trans (hsame y hyx)

/-! ## Released contexts -/

/-- `mnthr_gc` changes no function pointer outside of what it releases. -/
structure Released (cs : List Ptr) (s s' : St) : Prop where
  ctxes : ∀ c, c ∈ s'.ctxes ↔ c ∈ s.ctxes ∧ c ∉ cs
  nodup : s'.ctxes.Nodup
  f : ∀ c, c ∉ cs → (s'.ctx c).f = (s.ctx c).f

/-- Waking threads keeps `ctxes`, and the fields that `set_resume` does not
write. -/
theorem resumeWaitqN_frame {n : Nat} {q : Waitq} (hs : resumeWaitqN n s q = some s') :
    s'.ctxes = s.ctxes ∧ ∀ {α : Type} (get : Ctx → α),
      (∀ y st d, get { y with state := st, expireTicks := d } = get y) →
        ∀ c, get (s'.ctx c) = get (s.ctx c) := by
  induction n generalizing s with
  | zero => cases hs; exact ⟨rfl, fun _ _ _ => rfl⟩
  | succ n ih =>
    obtain ⟨s1, h1, h2⟩ := Option.bind_eq_some_iff.1 hs
    obtain ⟨hc, hf⟩ := ih h2
    rcases resumeWaitqOne_cases h1 with ⟨-, rfl⟩ | ⟨t, rest, -, -, rfl⟩
    · exact ⟨hc, hf⟩
    · refine ⟨hc.trans ?_, fun get hget c =>
        (hf get hget c).trans (woken_keeps get hget _ _ _ c)⟩
      unfold woken
      split <;> rfl

theorem ctxFini_released (hnd : s.ctxes.Nodup) (hs : s.ctxFini c = some s') :
    Released [c] s s' := by
  unfold ctxFini at hs
  split at hs
  · cases hs
  · obtain ⟨s1, h1, rfl⟩ := Option.map_eq_some_iff.1 hs
    obtain ⟨s2, h2, rfl⟩ := Option.map_eq_some_iff.1 h1
    obtain ⟨hc, hf⟩ := resumeWaitqN_frame h2
    have hc : s2.ctxes = s.ctxes := hc
    refine ⟨fun x => ?_, ?_, fun x hx => ?_⟩
    · show x ∈ s2.ctxes.erase c ↔ _
      rw [hc, hnd.mem_erase_iff, List.mem_singleton, and_comm]
    · show (s2.ctxes.erase c).Nodup
      rw [hc]
      exact hnd.erase c
    · have hx : x ≠ c := by simpa using hx
      simpa [setCtx, hx] using hf Ctx.f (fun _ _ _ => rfl) x

theorem ctxFiniAll_released {cs : List Ptr} (hnd : s.ctxes.Nodup) (hs : ctxFiniAll cs s = some s') :
    Released cs s s' := by
  induction cs generalizing s with
  | nil => cases hs; exact ⟨by simp, hnd, fun _ _ => rfl⟩
  | cons c cs ih =>
    obtain ⟨s1, h1, h2⟩ := Option.bind_eq_some_iff.1 hs
    have hr := ctxFini_released hnd h1
    have hr' := ih hr.nodup h2
    refine ⟨fun x => ?_, hr'.nodup, fun x hx => ?_⟩
    · rw [hr'.ctxes, hr.ctxes, List.mem_singleton, List.mem_cons, not_or, and_assoc]
    · obtain ⟨hxc, hxs⟩ := not_or.1 (mt List.mem_cons.2 hx)
      exact (hr'.f x hxs).trans (hr.f x (by simpa using hxc))

theorem gc_released (hnd : s.ctxes.Nodup) (hs : s.gc = some s') :
    Released s.gcReleased s s' ∧ s'.freeList = s.gcPinned.take 1 ∧
      s'.gcRest = s.gcPinned.drop 1 := by
  unfold gc at hs
  split at hs
  · obtain ⟨s1, h1, rfl⟩ := Option.map_eq_some_iff.1 hs
    have hr := ctxFiniAll_released hnd h1
    exact ⟨⟨hr.ctxes, hr.nodup, hr.f⟩, rfl, rfl⟩
  · cases hs

theorem mem_gcPinned : c ∈ s.gcPinned ↔ (c ∈ s.ctxes ∧ s.linked c) ∧ 0 < (s.ctx c).abac := by
  simp only [gcPinned, gcSeen, List.mem_filter, decide_eq_true_eq]

theorem mem_gcReleased : c ∈ s.gcReleased ↔ (c ∈ s.ctxes ∧ s.linked c) ∧ (s.ctx c).abac = 0 := by
  simp only [gcReleased, gcSeen, List.mem_filter, decide_eq_true_eq, beq_iff_eq]

/-- The two loops of `mnthr_gc` leave the lists of the model. -/
theorem gcLists_spec (hf : FreeLinks s h) (hnd : s.ctxes.Nodup) (hs : s.gc = some s') :
    ∃ h', s.gcLists h = some h' ∧ FreeLinks s' h' := by
  obtain ⟨hr, hfree, hrest⟩ := gc_released hnd hs
  have hcollect := gcCollect_spec (s := s) (F := h.list) (tmpList_start (L := h.links) hnd)
  have hpin : s.ctxes.filter (fun x => decide (¬ h.list.Orphan h.links x) &&
      decide (0 < (s.ctx x).abac)) = s.gcPinned := by
    rw [gcPinned, gcSeen, List.filter_filter]
    refine List.filter_congr fun x hx => ?_
    simp only [hf.orphan_iff hx, not_not, Bool.and_comm]
  rw [hpin] at hcollect
  obtain ⟨hhold, hsame⟩ := hcollect
  obtain ⟨h', hh', hhold', hseg', hsame'⟩ := gcMove_spec (n := s.ctxes.length) hhold
  have hpinned : ∀ c, c ∈ s'.freeList ∨ c ∈ s'.gcRest ↔ c ∈ s.gcPinned := by
    intro c
    rw [hfree, hrest, ← List.mem_append, List.take_append_drop]
  refine ⟨h', hh', ?_, ?_, ?_, fun c hc => ?_, fun c hc hcf hcr => ?_⟩
  · rw [hfree]; exact hhold'
  · rw [hrest]; exact hseg'
  · rw [hfree, hrest, List.take_append_drop]
    exact (hnd.filter _).filter _
  · obtain ⟨⟨hcc, hl⟩, ha⟩ := mem_gcPinned.1 ((hpinned c).1 hc)
    have hnr : c ∉ s.gcReleased := fun h0 => by
      have := (mem_gcReleased.1 h0).2
      omega
    refine ⟨(hr.ctxes c).2 ⟨hcc, hnr⟩, ?_⟩
    rw [hr.f c hnr]
    rcases hl with hl | ⟨hl, -⟩
    · exact (hf.dead c (.inl hl)).2
    · exact (hf.dead c (.inr hl)).2
  · obtain ⟨hcc, hnr⟩ := (hr.ctxes c).1 hc
    have hnp : c ∉ s.gcPinned := fun hp => ((hpinned c).2 hp).elim hcf hcr
    have hnl : ¬ s.linked c := by
      intro hl
      by_cases ha : 0 < (s.ctx c).abac
      · exact hnp (mem_gcPinned.2 ⟨⟨hcc, hl⟩, ha⟩)
      · exact hnr (mem_gcReleased.2 ⟨⟨hcc, hl⟩, by omega⟩)
    obtain ⟨hfr, -⟩ := (hf.orphan_iff hcc).2 hnl
    have hx := (hsame c hnp).trans (hsame' c hnp)
    exact ⟨hx.1.trans hfr.1, hx.2.trans hfr.2⟩

end

end Mnthr

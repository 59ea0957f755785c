import Mathlib.Data.List.Nodup
import Mathlib.Logic.Function.Basic

/-!
# Doubly linked queues

`DTQUEUE` as its users know it: the links are a field of the entries, a queue is
a head and a tail, and one link field may serve several queues, an entry being
in one of them at most. `Dtqueue.Holds` says which list a queue stands for;
enqueue, dequeue, insertion, removal and the orphan test do on the list what they
should, as long as the entry that goes in is not in the queue already, and the
one that is removed is. The `_same` lemmas say whose links stay.
-/
namespace Mnthr

/-- A `DTQUEUE_ENTRY` field of all entries. -/
structure Links (α : Type) where
  prev : α → Option α
  next : α → Option α

structure Dtqueue (α : Type) where
  head : Option α
  tail : Option α

section
variable {α : Type} [DecidableEq α]

namespace Links

def setPrev (L : Links α) (x : α) (o : Option α) : Links α :=
  { L with prev := Function.update L.prev x o }

def setNext (L : Links α) (x : α) (o : Option α) : Links α :=
  { L with next := Function.update L.next x o }

/-- `DTQUEUE_ENTRY_INIT`, `DTQUEUE_ENTRY_FINI` -/
def clear (L : Links α) (x : α) : Links α := (L.setPrev x none).setNext x none

/-- `x` is linked behind `t`, or nothing. -/
def link (L : Links α) (t : Option α) (x : α) : Links α :=
  let L1 := (L.setPrev x t).setNext x none
  match t with
  | none => L1
  | some t => L1.setNext t (some x)

/-- The neighbours of `x` are linked to each other, and `x` to nothing. -/
def unlink (L : Links α) (x : α) : Links α :=
  let L1 := match L.prev x with
    | some y => L.setNext y (L.next x)
    | none => L
  let L2 := match L.next x with
    | some y => L1.setPrev y (L.prev x)
    | none => L1
  L2.clear x

/-- `x` is linked before `y`. -/
def linkBefore (L : Links α) (y x : α) : Links α :=
  let L1 := (L.setPrev x (L.prev y)).setNext x (some y)
  let L2 := match L.prev y with
    | some z => L1.setNext z (some x)
    | none => L1
  L2.setPrev y (some x)

/-- No links. -/
def Free (L : Links α) (x : α) : Prop := L.prev x = none ∧ L.next x = none

instance (L : Links α) (x : α) : Decidable (L.Free x) := by unfold Free; infer_instance

/-- The links of two tables agree on `x`. -/
def Same (L L' : Links α) (x : α) : Prop := L'.prev x = L.prev x ∧ L'.next x = L.next x

/-- The entries of the list are linked in its order, the first one to `p`. -/
def Seg (L : Links α) : Option α → List α → Prop
  | _, [] => True
  | p, x :: xs => L.prev x = p ∧ L.next x = xs.head? ∧ Seg L (some x) xs

end Links

namespace Dtqueue

/-- The element after `x`. -/
def after (x : α) : List α → Option α
  | [] => none
  | y :: l => if y = x then l.head? else after x l

/-- The element before `x`. -/
def before (x : α) (l : List α) : Option α := after x l.reverse

/-- The neighbours of `x` in a list. -/
def besides (x : α) (l : List α) : List α := (before x l).toList ++ (after x l).toList

/-- The links of lists that are apart: `block x` is the one that `x` is in. -/
def linksOf (block : α → List α) : Links α :=
  ⟨fun x => before x (block x), fun x => after x (block x)⟩

/-- The head and the tail of a list. -/
def ends (l : List α) : Dtqueue α := ⟨l.head?, l.getLast?⟩

/-- `DTQUEUE_INIT`, `DTQUEUE_FINI` -/
def empty : Dtqueue α := ⟨none, none⟩

/-- `DTQUEUE_ENQUEUE`: the entry is linked at the tail, its `next` is NULL. -/
def enqueue (p : Links α × Dtqueue α) (x : α) : Links α × Dtqueue α :=
  (p.1.link p.2.tail x, ⟨p.2.head.or (some x), some x⟩)

/-- `DTQUEUE_DEQUEUE`: the head leaves, with its own links as they are. -/
def dequeue (p : Links α × Dtqueue α) : Links α × Dtqueue α :=
  match p.2.head.bind p.1.next with
  | none => (p.1, empty)
  | some n => (p.1.setPrev n none, ⟨some n, p.2.tail⟩)

/-- `DTQUEUE_REMOVE`: the entry leaves its neighbours, or the ends of the queue, and is cleared. -/
def remove (p : Links α × Dtqueue α) (x : α) : Links α × Dtqueue α :=
  (p.1.unlink x, ⟨(p.1.prev x).elim (p.1.next x) fun _ => p.2.head,
    (p.1.next x).elim (p.1.prev x) fun _ => p.2.tail⟩)

/-- `DTQUEUE_INSERT_BEFORE` -/
def insertBefore (p : Links α × Dtqueue α) (y x : α) : Links α × Dtqueue α :=
  (p.1.linkBefore y x, ⟨(p.1.prev y).elim (some x) fun _ => p.2.head, p.2.tail⟩)

/-- The entries of a list, enqueued one after the other. -/
def ofList (l : List α) : Links α × Dtqueue α :=
  l.foldl enqueue (⟨fun _ => none, fun _ => none⟩, empty)

/-- `DTQUEUE_ORPHAN` -/
def Orphan (L : Links α) (q : Dtqueue α) (x : α) : Prop := L.Free x ∧ q.head ≠ some x

instance (L : Links α) (q : Dtqueue α) (x : α) : Decidable (q.Orphan L x) := by
  unfold Orphan; infer_instance

/-- The queue stands for the list. -/
structure Holds (L : Links α) (q : Dtqueue α) (l : List α) : Prop where
  head : q.head = l.head?
  tail : q.tail = l.getLast?
  seg : L.Seg none l
  nodup : l.Nodup

end Dtqueue

namespace Links
variable {L L' : Links α} {x y : α} {p t : Option α} {l a b : List α}

section
omit [DecidableEq α]

theorem Same.trans {L1 : Links α} (h : L.Same L1 x) (h' : L1.Same L' x) : L.Same L' x :=
  ⟨h'.1.trans h.1, h'.2.trans h.2⟩

theorem Seg.congr (h : L.Seg p l) (hs : ∀ x ∈ l, Same L L' x) : L'.Seg p l := by
  induction l generalizing p with
  | nil => trivial
  | cons x xs ih =>
    obtain ⟨h1, h2, h3⟩ := h
    obtain ⟨hp, hn⟩ := hs x List.mem_cons_self
    exact ⟨hp.trans h1, hn.trans h2, ih h3 fun y hy => hs y (List.mem_cons_of_mem _ hy)⟩

/-- An entry that is not first in its list has a predecessor. -/
theorem Seg.prev_ne (h : L.Seg p l) (hx : x ∈ l) (hh : l.head? ≠ some x) : L.prev x ≠ none := by
  induction l generalizing p with
  | nil => cases hx
  | cons y ys ih =>
    rcases List.mem_cons.1 hx with rfl | hx
    · exact absurd rfl hh
    · by_cases hy : ys.head? = some x
      · obtain ⟨zs, rfl⟩ := List.head?_eq_some_iff.1 hy
        rw [h.2.2.1]
        simp
      · exact ih h.2.2 hx hy

/-- In a list of two or more every entry is linked to another one. -/
theorem Seg.not_free (h : L.Seg p l) (hx : x ∈ l) (hl : 2 ≤ l.length) : ¬ L.Free x := by
  intro hf
  cases l with
  | nil => cases hx
  | cons y ys =>
    by_cases hy : y = x
    · subst hy
      have hn := h.2.1
      rw [hf.2] at hn
      cases ys with
      | nil => simp at hl
      | cons z zs => cases hn
    · exact h.prev_ne hx (by simpa using hy) hf.1

end

theorem clear_same (h : y ≠ x) : Same L (L.clear x) y := by
  simp [clear, Same, setPrev, setNext, h]

omit [DecidableEq α] in
theorem Same.free (hs : L.Same L' x) (h : L.Free x) : L'.Free x :=
  ⟨hs.1.trans h.1, hs.2.trans h.2⟩

theorem clear_free (h : y = x ∨ L.Free y) : (L.clear x).Free y := by
  by_cases hy : y = x
  · simp [hy, clear, Free, setPrev, setNext]
  · exact (clear_same hy).free (h.resolve_left hy)

theorem link_same (hx : y ≠ x) (ht : t ≠ some y) : Same L (L.link t x) y := by
  unfold link
  cases t with
  | none => simp [Same, setPrev, setNext, hx]
  | some z =>
    have hz : y ≠ z := fun h => ht (h ▸ rfl)
    simp [Same, setPrev, setNext, hx, hz]

/-- The new entry, where its predecessor is another one. -/
theorem link_self (ht : t ≠ some x) : (L.link t x).prev x = t ∧ (L.link t x).next x = none := by
  unfold link
  cases t with
  | none => simp [setPrev, setNext]
  | some z =>
    have hz : x ≠ z := fun h => ht (h ▸ rfl)
    simp [setPrev, setNext, hz]

/-- A list that is extended at its tail. -/
theorem Seg.link (h : L.Seg p l) (hx : x ∉ l) (hp : p ≠ some x) (hnd : l.Nodup) :
    (L.link (l.getLast?.or p) x).Seg p (l ++ [x]) := by
  induction l generalizing p with
  | nil => exact ⟨(link_self hp).1, (link_self hp).2, trivial⟩
  | cons y ys ih =>
    obtain ⟨h1, h2, h3⟩ := h
    obtain ⟨hy, hnd⟩ := List.nodup_cons.1 hnd
    obtain ⟨hxy, hxs⟩ := not_or.1 (mt List.mem_cons.2 hx)
    have ht : (y :: ys).getLast?.or p = ys.getLast?.or (some y) := by
      rw [List.getLast?_cons]
      cases ys.getLast? <;> rfl
    rw [ht]
    refine ⟨?_, ?_, ih h3 hxs (by simpa using Ne.symm hxy) hnd⟩
    · rw [← h1]
      unfold Links.link
      split <;> simp [setPrev, setNext, Ne.symm hxy]
    · cases ys with
      | nil => simp [Links.link, setNext]
      | cons z zs =>
        have hlast : (z :: zs).getLast?.or (some y) ≠ some y := by
          intro hl
          rw [List.getLast?_cons, Option.some_or, ← List.getLast?_cons] at hl
          exact hy (List.mem_of_getLast? hl)
        rw [(link_same (Ne.symm hxy) hlast).2, h2]
        rfl

theorem unlink_prev (h : y ≠ x) :
    (L.unlink x).prev y = if L.next x = some y then L.prev x else L.prev y := by
  unfold unlink
  cases hp : L.prev x <;> cases hn : L.next x <;>
    simp [clear, setPrev, setNext, h, Function.update_apply, eq_comm]

theorem unlink_next (h : y ≠ x) :
    (L.unlink x).next y = if L.prev x = some y then L.next x else L.next y := by
  unfold unlink
  cases hp : L.prev x <;> cases hn : L.next x <;>
    simp [clear, setPrev, setNext, h, Function.update_apply, eq_comm]

theorem unlink_free (L : Links α) (x : α) : (L.unlink x).Free x := by
  simp [unlink, Free, clear, setPrev, setNext]

theorem unlink_same (h : y ≠ x) (hp : L.prev x ≠ some y) (hn : L.next x ≠ some y) :
    Same L (L.unlink x) y := by
  rw [Same, unlink_prev h, unlink_next h, if_neg hp, if_neg hn]
  exact ⟨rfl, rfl⟩

omit [DecidableEq α] in
/-- The neighbours of an entry. -/
theorem Seg.middle (h : L.Seg p (a ++ x :: b)) :
    L.prev x = a.getLast?.or p ∧ L.next x = b.head? := by
  induction a generalizing p with
  | nil => exact ⟨h.1, h.2.1⟩
  | cons w a ih =>
    have := ih h.2.2
    rw [List.getLast?_cons]
    refine ⟨this.1.trans ?_, this.2⟩
    cases a.getLast? <;> rfl

/-- A list that loses an entry. -/
theorem Seg.unlink (h : L.Seg p (a ++ x :: b)) (hnd : (a ++ x :: b).Nodup)
    (hp : ∀ z ∈ a ++ x :: b, p ≠ some z) : (L.unlink x).Seg p (a ++ b) := by
  induction a generalizing p with
  | nil =>
    obtain ⟨h1, h2, h3⟩ := h
    cases b with
    | nil => trivial
    | cons y ys =>
      obtain ⟨hxy, hnd⟩ := List.nodup_cons.1 hnd
      obtain ⟨hyy, hnd⟩ := List.nodup_cons.1 hnd
      have hyx : y ≠ x := by intro e; subst e; simp at hxy
      obtain ⟨h4, h5, h6⟩ := h3
      refine ⟨?_, ?_, h6.congr fun z hz => unlink_same ?_ ?_ ?_⟩
      · rw [unlink_prev hyx, if_pos (show L.next x = some y from h2), h1]
      · rw [unlink_next hyx, if_neg, h5]
        rw [h1]
        exact hp y (by simp)
      · intro e; subst e; simp [hz] at hxy
      · rw [h1]
        exact hp z (by simp [hz])
      · rw [h2]
        intro e
        cases e
        exact hyy hz
  | cons w a ih =>
    obtain ⟨h1, h2, h3⟩ := h
    obtain ⟨hw, hnd'⟩ := List.nodup_cons.1 hnd
    obtain ⟨m1, m2⟩ := h3.middle
    have hwx : w ≠ x := by intro e; subst e; simp at hw
    refine ⟨?_, ?_, ih h3 hnd' ?_⟩
    · rw [unlink_prev hwx, if_neg, h1]
      rw [m2]
      intro e
      exact hw (by simp [List.mem_of_head? e])
    · rw [unlink_next hwx, m1, m2]
      cases a with
      | nil => simp
      | cons v a =>
        have hne : (v :: a).getLast?.or (some w) ≠ some w := by
          intro e
          rw [List.getLast?_cons, Option.some_or, ← List.getLast?_cons] at e
          exact hw (List.mem_append_left _ (List.mem_of_getLast? e))
        rw [if_neg hne, h2]
        rfl
    · intro z hz e
      cases e
      exact hw hz

omit [DecidableEq α] in
/-- Whoever is reached from `x` along `next` is behind it in the list. -/
theorem Seg.reach (h : L.Seg p (x :: l)) (hpath : (x :: a).map L.next = (a ++ [z]).map some) :
    z ∈ l := by
  induction a generalizing p x l with
  | nil =>
    have hn : L.next x = some z := by simpa using hpath
    exact List.mem_of_head? (h.2.1.symm.trans hn)
  | cons w a ih =>
    simp only [List.map_cons, List.cons_append, List.cons.injEq] at hpath
    obtain ⟨hn, hpath⟩ := hpath
    obtain ⟨ws, rfl⟩ := List.head?_eq_some_iff.1 (h.2.1.symm.trans hn)
    exact List.mem_cons_of_mem _ (ih h.2.2 (by simpa using hpath))

omit [DecidableEq α] in
/-- `next` leads through a list. -/
theorem Seg.path (h : L.Seg p (a ++ x :: l)) : a.map L.next = (a ++ [x]).tail.map some := by
  induction a generalizing p with
  | nil => rfl
  | cons w a ih =>
    have := ih h.2.2
    cases a with
    | nil => simpa using h.2.1
    | cons v a => simpa [this] using h.2.1

/-- A list that is extended at its head. -/
theorem Seg.linkBefore (h : L.Seg none (y :: l)) (hx : x ∉ y :: l) (hnd : (y :: l).Nodup) :
    (L.linkBefore y x).Seg none (x :: y :: l) := by
  obtain ⟨h1, h2, h3⟩ := h
  obtain ⟨hxy, hxl⟩ := not_or.1 (mt List.mem_cons.2 hx)
  have hy := (List.nodup_cons.1 hnd).1
  have hyx : y ≠ x := Ne.symm hxy
  simp only [Links.linkBefore, h1]
  refine ⟨by simp [setPrev, setNext, hxy], by simp [setPrev, setNext], by simp [setPrev],
    by simp [setPrev, setNext, hyx, h2], h3.congr fun z hz => ?_⟩
  have hzx : z ≠ x := by intro e; subst e; exact hxl hz
  have hzy : z ≠ y := by intro e; subst e; exact hy hz
  simp [Same, setPrev, setNext, hzx, hzy]

end Links

namespace Dtqueue
variable {L L' : Links α} {q : Dtqueue α} {x y : α} {l : List α}

omit [DecidableEq α] in
theorem holds_empty (L : Links α) : (empty : Dtqueue α).Holds L [] := ⟨rfl, rfl, trivial, .nil⟩

omit [DecidableEq α] in
theorem Holds.not_orphan (h : q.Holds L l) (hx : x ∈ l) : ¬ q.Orphan L x := by
  intro hx
  obtain ⟨hf, hh⟩ := hx
  rw [h.head] at hh
  exact h.seg.prev_ne hx hh hf.1

omit [DecidableEq α] in
theorem Holds.orphan (h : q.Holds L l) (hx : x ∉ l) (hf : L.Free x) : q.Orphan L x := by
  refine ⟨hf, fun e => hx ?_⟩
  rw [h.head] at e
  exact List.mem_of_head? e

omit [DecidableEq α] in
/-- The list is determined by the queue. -/
theorem Holds.unique {l' : List α} (h : q.Holds L l) (h' : q.Holds L l') : l = l' := by
  have key : ∀ {p : Option α} {l l' : List α}, L.Seg p l → L.Seg p l' → l.head? = l'.head? →
      l = l' := by
    intro p l
    induction l generalizing p with
    | nil =>
      intro l' _ _ he
      cases l' with
      | nil => rfl
      | cons x xs => cases he
    | cons x xs ih =>
      intro l' hl hl' he
      cases l' with
      | nil => cases he
      | cons y ys =>
        cases he
        rw [ih hl.2.2 hl'.2.2 (hl.2.1.symm.trans hl'.2.1)]
  exact key h.seg h'.seg (h.head.symm.trans h'.head)

theorem Holds.enqueue (h : q.Holds L l) (hx : x ∉ l) :
    (enqueue (L, q) x).2.Holds (enqueue (L, q) x).1 (l ++ [x]) where
  head := by simp [Dtqueue.enqueue, h.head]
  tail := by simp [Dtqueue.enqueue]
  seg := by
    have := h.seg.link hx (by simp) h.nodup
    rwa [Option.or_none, ← h.tail] at this
  nodup := by
    rw [← List.concat_eq_append]
    exact h.nodup.concat hx

theorem enqueue_same (h : q.Holds L l) (hy : y ∉ l) (hx : y ≠ x) :
    L.Same (enqueue (L, q) x).1 y := by
  refine Links.link_same hx fun ht => hy ?_
  rw [h.tail] at ht
  exact List.mem_of_getLast? ht

theorem holds_ofList (h : l.Nodup) :
    (ofList l).2.Holds (ofList l).1 l ∧ ∀ y, y ∉ l → (ofList l).1.Free y := by
  have key : ∀ {l a : List α} {p : Links α × Dtqueue α}, p.2.Holds p.1 a →
      (∀ y, y ∉ a → p.1.Free y) → (a ++ l).Nodup →
      (l.foldl Dtqueue.enqueue p).2.Holds (l.foldl Dtqueue.enqueue p).1 (a ++ l) ∧
        ∀ y, y ∉ a ++ l → (l.foldl Dtqueue.enqueue p).1.Free y := by
    intro l
    induction l with
    | nil =>
      intro a p hp hf _
      simpa using ⟨hp, hf⟩
    | cons x xs ih =>
      intro a p hp hf hnd
      have hx : x ∉ a := fun hx => (List.nodup_append.1 hnd).2.2 x hx x List.mem_cons_self rfl
      rw [List.append_cons] at hnd ⊢
      refine ih (hp.enqueue hx) (fun y hy => ?_) hnd
      have hya : y ∉ a := fun hm => hy (List.mem_append_left _ hm)
      have hs := enqueue_same (x := x) hp hya fun hyx => hy (by simp [hyx])
      exact ⟨hs.1.trans (hf y hya).1, hs.2.trans (hf y hya).2⟩
  exact key (a := []) (p := (⟨fun _ => none, fun _ => none⟩, empty)) (holds_empty _)
    (fun _ _ => ⟨rfl, rfl⟩) h

omit [DecidableEq α] in
theorem Holds.head_next (h : q.Holds L (x :: l)) : q.head.bind L.next = l.head? := by
  rw [h.head]
  exact h.seg.2.1

theorem Holds.dequeue (h : q.Holds L (x :: l)) : (dequeue (L, q)).2.Holds (dequeue (L, q)).1 l := by
  have hnext := h.head_next
  unfold Dtqueue.dequeue
  cases l with
  | nil =>
    simp only [hnext, List.head?_nil]
    exact holds_empty L
  | cons y ys =>
    simp only [hnext, List.head?_cons]
    obtain ⟨-, hn, hs⟩ := h.seg.2.2
    have hnd := (List.nodup_cons.1 h.nodup).2
    refine ⟨rfl, by rw [h.tail]; rfl, ⟨by simp [Links.setPrev], hn, hs.congr fun z hz => ?_⟩, hnd⟩
    have hzy : z ≠ y := by
      intro heq
      subst heq
      exact (List.nodup_cons.1 hnd).1 hz
    simp [Links.Same, Links.setPrev, hzy]

theorem dequeue_same (h : q.Holds L (x :: l)) (hy : y ∉ l) : L.Same (dequeue (L, q)).1 y := by
  have hnext := h.head_next
  unfold Dtqueue.dequeue
  cases l with
  | nil => simp [hnext, Links.Same]
  | cons z zs =>
    have hz : y ≠ z := fun hz => hy (hz ▸ List.mem_cons_self)
    simp [hnext, Links.Same, Links.setPrev, hz]

theorem Holds.remove (h : q.Holds L l) (hx : x ∈ l) :
    (remove (L, q) x).2.Holds (remove (L, q) x).1 (l.erase x) := by
  obtain ⟨a, b, -, rfl, he⟩ := List.exists_erase_eq hx
  obtain ⟨m1, m2⟩ := h.seg.middle
  rw [Option.or_none] at m1
  rw [he]
  refine ⟨?_, ?_, h.seg.unlink h.nodup (by simp), ?_⟩
  · simp only [Dtqueue.remove, m1, m2, h.head]
    cases a with
    | nil => simp
    | cons w a => simp [List.getLast?_cons]
  · simp only [Dtqueue.remove, m1, m2, h.tail]
    cases b with
    | nil => simp
    | cons y ys => simp [List.getLast?_append, List.getLast?_cons]
  · exact he ▸ h.nodup.erase x

/-- The links of an entry of another queue stay. -/
theorem remove_same (h : q.Holds L l) (hx : x ∈ l) (hy : y ∉ l) : L.Same (remove (L, q) x).1 y := by
  obtain ⟨a, b, -, rfl, -⟩ := List.exists_erase_eq hx
  obtain ⟨m1, m2⟩ := h.seg.middle
  rw [Option.or_none] at m1
  refine Links.unlink_same (fun e => hy (by simp [e])) (fun e => hy ?_) fun e => hy ?_
  · rw [m1] at e
    exact List.mem_append_left _ (List.mem_of_getLast? e)
  · rw [m2] at e
    simp [List.mem_of_head? e]

theorem Holds.insertBefore (h : q.Holds L (y :: l)) (hx : x ∉ y :: l) :
    (insertBefore (L, q) y x).2.Holds (insertBefore (L, q) y x).1 (x :: y :: l) := by
  have hy : L.prev y = none := h.seg.1
  refine ⟨by simp [Dtqueue.insertBefore, hy], ?_, h.seg.linkBefore hx h.nodup,
    List.nodup_cons.2 ⟨hx, h.nodup⟩⟩
  simp [Dtqueue.insertBefore, h.tail, List.getLast?_cons]

theorem insertBefore_same {z : α} (h : q.Holds L (y :: l)) (hz : z ∉ y :: l) (hx : z ≠ x) :
    L.Same (insertBefore (L, q) y x).1 z := by
  have hy : L.prev y = none := h.seg.1
  have hzy : z ≠ y := fun e => hz (by simp [e])
  simp [Dtqueue.insertBefore, Links.linkBefore, hy, Links.Same, Links.setPrev, Links.setNext, hx, hzy]

/-- An entry that is linked a second time, before the head, closes a cycle: the
queue stands for no list any more. -/
theorem insertBefore_member (h : q.Holds L (y :: l)) (hx : x ∈ y :: l) (l' : List α) :
    ¬ (insertBefore (L, q) y x).2.Holds (insertBefore (L, q) y x).1 l' := by
  intro h'
  obtain ⟨a, b, hxa, hl, -⟩ := List.exists_erase_eq hx
  have hy : L.prev y = none := h.seg.1
  have hnext : (insertBefore (L, q) y x).1.next = Function.update L.next x (some y) := by
    simp [insertBefore, Links.linkBefore, hy, Links.setPrev, Links.setNext]
  -- the list would start with `x`
  obtain ⟨rest, rfl⟩ : ∃ rest, l' = x :: rest := by
    refine List.head?_eq_some_iff.1 (h'.head.symm.trans ?_)
    simp [insertBefore, hy]
  have hseg := h.seg
  rw [hl] at hseg
  have ha : a.map (Function.update L.next x (some y)) = a.map L.next :=
    List.map_congr_left fun w hw => Function.update_of_ne (fun e : w = x => hxa (e ▸ hw)) _ _
  refine (List.nodup_cons.1 h'.nodup).1 (h'.seg.reach (a := a) ?_)
  rw [hnext, List.map_cons, Function.update_self, ha, hseg.path]
  cases a with
  | nil => simp_all
  | cons w a =>
    obtain ⟨rfl, -⟩ := List.cons.inj hl
    rfl

omit [DecidableEq α] in
theorem Holds.congr (h : q.Holds L l) (hs : ∀ x ∈ l, L.Same L' x) : q.Holds L' l :=
  { h with seg := h.seg.congr hs }

/-! ## Neighbours -/

theorem after_middle {a b : List α} (hx : x ∉ a) : after x (a ++ x :: b) = b.head? := by
  induction a with
  | nil => simp [after]
  | cons y a ih =>
    have hyx : y ≠ x := fun e => hx (by simp [e])
    simp only [List.cons_append, after, hyx, if_false]
    exact ih fun hm => hx (List.mem_cons_of_mem _ hm)

theorem before_middle {a b : List α} (hx : x ∉ b) : before x (a ++ x :: b) = a.getLast? := by
  have hrev : (a ++ x :: b).reverse = b.reverse ++ x :: a.reverse := by simp
  rw [before, hrev, after_middle (by simpa using hx), List.head?_reverse]

theorem after_of_notMem (hx : x ∉ l) : after x l = none := by
  induction l with
  | nil => rfl
  | cons y l ih =>
    have hyx : y ≠ x := fun e => hx (by simp [e])
    simp only [after, hyx, if_false]
    exact ih fun hm => hx (List.mem_cons_of_mem _ hm)

theorem besides_of_notMem (hx : x ∉ l) : besides x l = [] := by
  rw [besides, after_of_notMem hx, before, after_of_notMem (by simpa using hx)]
  rfl

/-- The links of an entry lead to its neighbours. -/
theorem Holds.links (h : q.Holds L l) (hx : x ∈ l) :
    L.prev x = before x l ∧ L.next x = after x l := by
  obtain ⟨a, b, ha, rfl, -⟩ := List.exists_erase_eq hx
  have hb : x ∉ b := (List.nodup_cons.1 (List.nodup_append.1 h.nodup).2.1).1
  obtain ⟨m1, m2⟩ := h.seg.middle
  rw [Option.or_none] at m1
  exact ⟨m1.trans (before_middle hb).symm, m2.trans (after_middle ha).symm⟩

/-- An entry leads to none but members of its list. -/
theorem Holds.mem_of_link {y : α} (h : q.Holds L l) (hx : x ∈ l)
    (hy : L.prev x = some y ∨ L.next x = some y) : y ∈ l := by
  obtain ⟨a, b, -, rfl, -⟩ := List.exists_erase_eq hx
  obtain ⟨m1, m2⟩ := h.seg.middle
  rw [Option.or_none] at m1
  rcases hy with hy | hy
  · rw [m1] at hy
    exact List.mem_append_left _ (List.mem_of_getLast? hy)
  · rw [m2] at hy
    exact List.mem_append_right _ (List.mem_cons_of_mem _ (List.mem_of_head? hy))

/-- Lists that are apart have links. -/
theorem holds_linksOf {block : α → List α} (hl : ∀ x ∈ l, block x = l) (hnd : l.Nodup) :
    (ends l).Holds (linksOf block) l := by
  have key : ∀ {a b : List α}, l = a ++ b → (linksOf block).Seg a.getLast? b := by
    intro a b
    induction b generalizing a with
    | nil => exact fun _ => trivial
    | cons x b ih =>
      intro he
      have hx : block x = a ++ x :: b := by rw [hl x (by simp [he]), he]
      rw [he, List.nodup_append, List.nodup_cons] at hnd
      have ha : x ∉ a := fun hm => hnd.2.2 x hm x (List.mem_cons_self ..) rfl
      refine ⟨?_, ?_, ?_⟩
      · show before x (block x) = a.getLast?
        rw [hx, before_middle hnd.2.1.1]
      · show after x (block x) = b.head?
        rw [hx, after_middle ha]
      · have := ih (a := a ++ [x]) (by simp [he])
        rwa [List.getLast?_concat] at this
  exact ⟨rfl, rfl, key (a := []) rfl, hnd⟩

theorem linksOf_free {block : α → List α} (hx : block x = []) : (linksOf block).Free x := by
  simp [Links.Free, linksOf, hx, before, after]

end Dtqueue

end

end Mnthr

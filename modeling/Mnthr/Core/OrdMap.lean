import Mathlib.Data.List.Basic
import Mathlib.Order.Lattice

/-!
# Ordered maps as sorted association lists

`OrdMap κ α` is a finite map from a linear order to `α`, kept as the list of
its entries in increasing key order; the order is a field, so a list that is
out of order is not a map. `find?`, `insert`, `erase` and `popWhile` (remove
the leading entries that satisfy a test) are the operations.

The lemmas `find?_some_zip` and `find?_none_zip` cut the entry list at a key:
every operation at that key then acts on the cut and leaves both sides alone.
-/
namespace Mnthr

structure OrdMap (κ α : Type) [LinearOrder κ] where
  entries : List (κ × α)
  sorted : entries.Pairwise (fun a b => a.1 < b.1)

namespace OrdMap
variable {κ α : Type} [LinearOrder κ]

def empty : OrdMap κ α := ⟨[], List.Pairwise.nil⟩

/-! ## List operations -/

def findL (k : κ) : List (κ × α) → Option α
  | [] => none
  | e :: t => if k = e.1 then some e.2 else findL k t

def insertL (k : κ) (a : α) : List (κ × α) → List (κ × α)
  | [] => [(k, a)]
  | e :: t => if k < e.1 then (k, a) :: e :: t else if k = e.1 then (k, a) :: t else e :: insertL k a t

def eraseL (k : κ) : List (κ × α) → List (κ × α)
  | [] => []
  | e :: t => if k = e.1 then t else e :: eraseL k t

theorem mem_insertL {k : κ} {a : α} {x : κ × α} : ∀ {l : List (κ × α)}, x ∈ insertL k a l →
    x = (k, a) ∨ x ∈ l
  | [], h => by simpa [insertL] using h
  | e :: t, h => by
    simp only [insertL] at h
    split at h
    · simpa using h
    · split at h
      · rcases List.mem_cons.1 h with h | h
        · exact .inl h
        · exact .inr (List.mem_cons_of_mem _ h)
      · rcases List.mem_cons.1 h with h | h
        · exact .inr (by simp [h])
        · exact (mem_insertL h).imp id (List.mem_cons_of_mem _)

theorem insertL_sorted (k : κ) (a : α) : ∀ {l : List (κ × α)},
    l.Pairwise (fun a b => a.1 < b.1) → (insertL k a l).Pairwise (fun a b => a.1 < b.1)
  | [], _ => by simp [insertL]
  | e :: t, h => by
    obtain ⟨h1, h2⟩ := List.pairwise_cons.1 h
    simp only [insertL]
    split
    · rename_i hk
      refine List.pairwise_cons.2 ⟨?_, h⟩
      intro x hx
      rcases List.mem_cons.1 hx with rfl | hx
      · exact hk
      · exact lt_trans hk (h1 x hx)
    · split
      · rename_i hk
        exact List.pairwise_cons.2 ⟨fun x hx => by simpa [hk] using h1 x hx, h2⟩
      · rename_i hlt hne
        refine List.pairwise_cons.2 ⟨?_, insertL_sorted k a h2⟩
        intro x hx
        rcases mem_insertL hx with rfl | hx
        · exact lt_of_le_of_ne (not_lt.1 hlt) (Ne.symm hne)
        · exact h1 x hx

theorem eraseL_sublist (k : κ) : ∀ l : List (κ × α), (eraseL k l).Sublist l
  | [] => List.Sublist.refl _
  | e :: t => by
    simp only [eraseL]
    split
    · exact List.sublist_cons_self e t
    · exact (eraseL_sublist k t).cons_cons e

/-! ## The operations -/

def find? (m : OrdMap κ α) (k : κ) : Option α := findL k m.entries

def insert (m : OrdMap κ α) (k : κ) (a : α) : OrdMap κ α :=
  ⟨insertL k a m.entries, insertL_sorted k a m.sorted⟩

def erase (m : OrdMap κ α) (k : κ) : OrdMap κ α :=
  ⟨eraseL k m.entries, m.sorted.sublist (eraseL_sublist k m.entries)⟩

/-- The values of the leading entries that satisfy `p`. -/
def front (m : OrdMap κ α) (p : α → Bool) : List α :=
  (m.entries.takeWhile fun e => p e.2).map Prod.snd

/-- The map without its leading entries that satisfy `p`. -/
def popWhile (m : OrdMap κ α) (p : α → Bool) : OrdMap κ α :=
  ⟨m.entries.dropWhile fun e => p e.2, m.sorted.sublist (List.dropWhile_sublist _)⟩

/-! ## Cutting at a key -/

theorem findL_some_zip {k : κ} {a : α} : ∀ {l : List (κ × α)},
    l.Pairwise (fun a b => a.1 < b.1) → findL k l = some a →
    ∃ x y, l = x ++ (k, a) :: y ∧ eraseL k l = x ++ y ∧ ∀ b, insertL k b l = x ++ (k, b) :: y
  | [], _, h => by simp [findL] at h
  | e :: t, hs, h => by
    obtain ⟨h1, h2⟩ := List.pairwise_cons.1 hs
    simp only [findL] at h
    split at h
    · rename_i hk
      simp only [Option.some.injEq] at h
      refine ⟨[], t, by simp [hk, ← h], by simp [eraseL, hk], fun b => ?_⟩
      simp [insertL, hk]
    · rename_i hk
      obtain ⟨x, y, ht, he, hi⟩ := findL_some_zip h2 h
      have hlt : e.1 < k := h1 (k, a) (by simp [ht])
      refine ⟨e :: x, y, by simp [ht], by simp [eraseL, hk, he], fun b => ?_⟩
      simp [insertL, not_lt.2 hlt.le, hk, hi]

theorem findL_none_zip {k : κ} : ∀ {l : List (κ × α)}, findL k l = none →
    ∃ x y, l = x ++ y ∧ ∀ b, insertL k b l = x ++ (k, b) :: y
  | [], _ => ⟨[], [], rfl, fun _ => rfl⟩
  | e :: t, h => by
    simp only [findL] at h
    split at h
    · cases h
    · rename_i hk
      by_cases hlt : k < e.1
      · exact ⟨[], e :: t, rfl, fun b => by simp [insertL, hlt]⟩
      · obtain ⟨x, y, ht, hi⟩ := findL_none_zip h
        exact ⟨e :: x, y, by simp [ht], fun b => by simp [insertL, hlt, hk, hi]⟩

theorem find?_some_zip {m : OrdMap κ α} {k : κ} {a : α} (h : m.find? k = some a) :
    ∃ x y, m.entries = x ++ (k, a) :: y ∧ (m.erase k).entries = x ++ y ∧
      ∀ b, (m.insert k b).entries = x ++ (k, b) :: y :=
  findL_some_zip m.sorted h

theorem find?_none_zip {m : OrdMap κ α} {k : κ} (h : m.find? k = none) :
    ∃ x y, m.entries = x ++ y ∧ ∀ b, (m.insert k b).entries = x ++ (k, b) :: y :=
  findL_none_zip h

theorem findL_of_mem {k : κ} {a : α} : ∀ {l : List (κ × α)},
    l.Pairwise (fun a b => a.1 < b.1) → (k, a) ∈ l → findL k l = some a
  | [], _, h => by simp at h
  | e :: t, hs, h => by
    obtain ⟨h1, h2⟩ := List.pairwise_cons.1 hs
    rcases List.mem_cons.1 h with rfl | h
    · simp [findL]
    · have hlt : e.1 < k := h1 _ h
      simp [findL, hlt.ne', findL_of_mem h2 h]

/-- Membership of the entry list is what `find?` returns. -/
theorem mem_entries_iff {m : OrdMap κ α} {k : κ} {a : α} :
    (k, a) ∈ m.entries ↔ m.find? k = some a := by
  refine ⟨fun h => findL_of_mem m.sorted h, fun h => ?_⟩
  obtain ⟨x, y, he, -⟩ := find?_some_zip h
  simp [he]

theorem find?_insert (m : OrdMap κ α) (k k' : κ) (a : α) :
    (m.insert k a).find? k' = if k' = k then some a else m.find? k' := by
  by_cases hk : k' = k
  · subst hk
    rw [if_pos rfl, ← mem_entries_iff]
    cases hf : m.find? k' with
    | none =>
      obtain ⟨x, y, -, hi⟩ := find?_none_zip hf
      rw [hi]
      simp
    | some b =>
      obtain ⟨x, y, -, -, hi⟩ := find?_some_zip hf
      rw [hi]
      simp
  · rw [if_neg hk]
    refine Option.ext fun b => ?_
    rw [← mem_entries_iff, ← mem_entries_iff]
    cases hf : m.find? k with
    | none =>
      obtain ⟨x, y, he, hi⟩ := find?_none_zip hf
      rw [hi, he]
      simp [hk]
    | some b =>
      obtain ⟨x, y, he, -, hi⟩ := find?_some_zip hf
      rw [hi, he]
      simp [hk]

theorem find?_erase {m : OrdMap κ α} {k : κ} {a : α} (h : m.find? k = some a) (k' : κ) :
    (m.erase k).find? k' = if k' = k then none else m.find? k' := by
  obtain ⟨x, y, he, hr, -⟩ := find?_some_zip h
  by_cases hk : k' = k
  · subst hk
    rw [if_pos rfl, Option.eq_none_iff_forall_ne_some]
    intro b hb
    rw [← mem_entries_iff, hr, List.mem_append] at hb
    -- another entry with the same key would be on one side of the cut
    have hs := m.sorted
    rw [he, List.pairwise_append, List.pairwise_cons] at hs
    rcases hb with hb | hb
    · exact lt_irrefl k' (hs.2.2 (k', b) hb (k', a) (List.mem_cons_self ..))
    · exact lt_irrefl k' (hs.2.1.1 (k', b) hb)
  · rw [if_neg hk]
    refine Option.ext fun b => ?_
    rw [← mem_entries_iff, ← mem_entries_iff, hr, he]
    simp [hk]

theorem front_append_popWhile (m : OrdMap κ α) (p : α → Bool) :
    m.entries = (m.entries.takeWhile fun e => p e.2) ++ (m.popWhile p).entries :=
  (List.takeWhile_append_dropWhile).symm

/-- The leading entries below a bound are all the entries below it. -/
theorem takeWhile_below {n : κ} {p : κ × α → Bool} : ∀ {l : List (κ × α)},
    l.Pairwise (fun a b => a.1 < b.1) → (∀ e ∈ l, p e = decide (e.1 < n)) →
    l.takeWhile p = l.filter (fun e => decide (e.1 < n)) ∧
      l.dropWhile p = l.filter fun e => decide (n ≤ e.1)
  | [], _, _ => ⟨rfl, rfl⟩
  | e :: t, hs, hp => by
    obtain ⟨h1, h2⟩ := List.pairwise_cons.1 hs
    obtain ⟨ih1, ih2⟩ := takeWhile_below h2 fun x hx => hp x (List.mem_cons_of_mem _ hx)
    have hpe := hp e (List.mem_cons_self ..)
    by_cases he : e.1 < n
    · simp [hpe, he, not_le.2 he, ih1, ih2]
    · have hn : n ≤ e.1 := not_lt.1 he
      -- what comes behind is not below the bound either
      have hall : ∀ x ∈ t, n ≤ x.1 := fun x hx => le_trans hn (h1 x hx).le
      have hnil : t.filter (fun x => decide (x.1 < n)) = [] :=
        List.filter_eq_nil_iff.2 fun x hx => by simpa using hall x hx
      have hself : t.filter (fun x => decide (n ≤ x.1)) = t :=
        List.filter_eq_self.2 fun x hx => by simpa using hall x hx
      simp [hpe, he, hn, hnil, hself]

end OrdMap
end Mnthr

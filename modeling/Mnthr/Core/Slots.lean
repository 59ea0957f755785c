import Mathlib.Data.List.ReduceOption

/-!
# Arrays with empty slots

An array of optional entries that is compacted in place: an empty slot takes the
next entry behind it, and the array is cut where no entry is left to take.
`compact_spec`: the entries stay, in their order, and the empty slots do not.
-/
namespace Mnthr
variable {α : Type}

/-- The search for slot `i`, from slot `j` on; `n` slots are left to look at. -/
def pullSlot (a : List (Option α)) (i : Nat) : Nat → Nat → List (Option α)
  | 0, _ => a
  | n + 1, j =>
    match a[j]? with
    | some (some x) => (a.set i (some x)).set j none
    | _ => pullSlot a i n (j + 1)

/-- Compaction from slot `i` on; `n` slots are left. -/
def compactFrom : Nat → Nat → List (Option α) → List (Option α)
  | 0, _, a => a
  | n + 1, i, a =>
    match a[i]? with
    | some none =>
      let b := pullSlot a i n (i + 1)
      match b[i]? with
      | some none => b.take i
      | _ => compactFrom n (i + 1) b
    | _ => compactFrom n (i + 1) a

def compact (a : List (Option α)) : List (Option α) := compactFrom a.length 0 a

section
variable {a b r : List (Option α)} {o : Option α} {i n : Nat}

theorem slot_at (h : a.length = i) : (a ++ o :: r)[i]? = some o := by
  rw [List.getElem?_append_right (by omega)]
  simp [h]

theorem set_at (h : a.length = i) (o' : Option α) :
    (a ++ o :: r).set i o' = a ++ o' :: r := by
  rw [List.set_append_right _ _ (by omega)]
  simp [h]

/-- The empty slot behind `a` gets the first entry of `r`; the slots `b` have
been looked at. -/
theorem pullSlot_spec (hb : ∀ o ∈ b, o = none) :
    ∃ c, pullSlot (a ++ none :: (b ++ r)) a.length r.length (a.length + 1 + b.length) =
        a ++ r.reduceOption.head? :: c ∧
      c.length = b.length + r.length ∧ c.reduceOption = r.reduceOption.tail := by
  have hnil : b.reduceOption = [] :=
    (List.reduceOption_eq_nil_iff b).2 ⟨b.length, List.eq_replicate_of_mem hb⟩
  induction r generalizing b with
  | nil => exact ⟨b, by simp [pullSlot], by simp, by simp [hnil]⟩
  | cons o r ih =>
    have hat : (a ++ none :: (b ++ o :: r))[a.length + 1 + b.length]? = some o := by
      simp [Nat.add_assoc, Nat.add_comm 1]
    rw [List.length_cons, pullSlot, hat]
    cases o with
    | some x =>
      refine ⟨b ++ none :: r, ?_, by simp, ?_⟩
      · simp [set_at (a := a) rfl, Nat.add_assoc, Nat.add_comm 1]
      · simp [List.reduceOption_append, hnil]
    | none =>
      have := ih (b := b ++ [none]) (by simpa [or_imp, forall_and] using hb)
        (by simp [List.reduceOption_append, hnil])
      simpa [Nat.add_assoc, Nat.add_comm, Nat.add_left_comm] using this

/-- The slots before `i` are full, and stay. -/
theorem compactFrom_spec {p : List α} (hn : r.length = n) :
    compactFrom n p.length (p.map some ++ r) = (p ++ r.reduceOption).map some := by
  induction n generalizing p r with
  | zero =>
    obtain rfl := List.length_eq_zero_iff.1 hn
    simp [compactFrom]
  | succ n ih =>
    obtain ⟨o, r, rfl⟩ := List.exists_cons_of_length_eq_add_one hn
    have hlen : (p.map some).length = p.length := by simp
    have hlr : r.length = n := by simpa using hn
    have next : ∀ {x : α} {c : List (Option α)}, c.length = n →
        compactFrom n (p.length + 1) (p.map some ++ some x :: c) =
          (p ++ x :: c.reduceOption).map some := by
      intro x c hc
      simpa using ih (p := p ++ [x]) hc
    rw [compactFrom, slot_at hlen]
    cases o with
    | some x => simpa using next hlr
    | none =>
      obtain ⟨c, hpull, hc, hrest⟩ := pullSlot_spec (a := p.map some) (b := []) (r := r)
        (by simp)
      rw [hlen, hlr, List.length_nil, Nat.add_zero, List.nil_append] at hpull
      simp only [hpull, slot_at hlen]
      cases hh : r.reduceOption with
      | nil => simp [hh]
      | cons x xs =>
        rw [hh, List.tail_cons] at hrest
        have := next (x := x) (c := c) (by simpa [hlr] using hc)
        simpa [hh, hrest] using this

end

theorem compact_spec (a : List (Option α)) : compact a = a.reduceOption.map some :=
  compactFrom_spec (p := []) rfl

end Mnthr

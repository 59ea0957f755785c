import Mathlib.Data.List.Nodup
import Mathlib.Data.List.Perm.Subperm

/-!
# Registrations and lists of changes

What users of a kernel event queue rely on: one registration for a key, with a
value that the events of the key carry; additions and deletions are collected
in a list and applied in one call, in order. An addition replaces the value of
a registration that is there; the kernel may refuse it. A deletion fails when
the key is not registered. The call reports the changes that fail.

`settle` is the table that the pending changes lead to when none is refused.
`mayHold` lists what the table may hold at any moment from then on, whatever
is refused; `apply_mayHold` says that table and reported additions are part of
it, each once.
-/
namespace Mnthr
namespace Kqueue

structure Change (κ υ : Type) where
  key : κ
  add : Bool
  udata : υ
  deriving DecidableEq, Repr

section
variable {κ υ : Type} [DecidableEq κ]

def Change.pair (c : Change κ υ) : κ × υ := (c.key, c.udata)

/-- Without the registration of `k`. -/
def drop (k : κ) (r : List (κ × υ)) : List (κ × υ) := r.filter fun x => decide (x.1 ≠ k)

/-- One change that succeeds. -/
def Change.run (c : Change κ υ) (r : List (κ × υ)) : List (κ × υ) :=
  if c.add then drop c.key r ++ [c.pair] else drop c.key r

/-- The change fails: an addition when it is refused, a deletion when there is
nothing to delete. -/
def Change.fails (c : Change κ υ) (refused : Bool) (r : List (κ × υ)) : Bool :=
  if c.add then refused else decide (c.key ∉ r.map Prod.fst)

/-- The table after the changes, and the changes that failed. -/
def applyChanges : List (Change κ υ) → List Bool → List (κ × υ) →
    List (κ × υ) × List (Change κ υ)
  | [], _, r => (r, [])
  | c :: l, b, r =>
    if c.fails (b.headD false) r then
      let p := applyChanges l b.tail r
      (p.1, c :: p.2)
    else applyChanges l b.tail (c.run r)

/-- The table once the changes are applied. -/
def settle (l : List (Change κ υ)) (r : List (κ × υ)) : List (κ × υ) := (applyChanges l [] r).1

/-- What the table may come to hold: an addition only ever adds. -/
def mayHold : List (Change κ υ) → List (κ × υ) → List (κ × υ)
  | [], r => r
  | c :: l, r => mayHold l (if c.add then r ++ [c.pair] else drop c.key r)

/-- The changes that fail are additions, and no deletion of the same key is
behind one of them. -/
def OnlyRefusals : List (Change κ υ) → List Bool → List (κ × υ) → Prop
  | [], _, _ => True
  | c :: l, b, r =>
    (c.fails (b.headD false) r → c.add ∧ ∀ d ∈ l, d.key = c.key → d.add) ∧
      OnlyRefusals l b.tail (if c.fails (b.headD false) r then r else c.run r)

instance decidableOnlyRefusals : ∀ (l : List (Change κ υ)) (b : List Bool) (r : List (κ × υ)),
    Decidable (OnlyRefusals l b r)
  | [], _, _ => .isTrue trivial
  | c :: l, b, r =>
    have := decidableOnlyRefusals l b.tail (if c.fails (b.headD false) r then r else c.run r)
    inferInstanceAs (Decidable (_ ∧ _))

variable {c : Change κ υ} {l : List (Change κ υ)} {b : List Bool} {r m e : List (κ × υ)} {k : κ}
  {x : κ × υ}

/-! ## One change -/

theorem mem_drop : x ∈ drop k r ↔ x ∈ r ∧ x.1 ≠ k := by simp [drop]

theorem drop_eq_self (h : ∀ x ∈ r, x.1 ≠ k) : drop k r = r :=
  List.filter_eq_self.2 fun x hx => decide_eq_true (h x hx)

theorem mem_run : x ∈ c.run r ↔ (c.add ∧ x = c.pair) ∨ (x ∈ r ∧ x.1 ≠ c.key) := by
  unfold Change.run
  by_cases h : c.add
  · simp [h, mem_drop, or_comm]
  · simp [h, mem_drop]

theorem keys_drop_length (hn : (r.map Prod.fst).Nodup) (hk : k ∈ r.map Prod.fst) :
    (drop k r).length + 1 = r.length := by
  induction r with
  | nil => cases hk
  | cons y r ih =>
    obtain ⟨hy, hn⟩ := List.nodup_cons.1 hn
    by_cases hyk : y.1 = k
    · have hrest : drop k r = r := drop_eq_self fun z hz hzk =>
        hy (List.mem_map.2 ⟨z, hz, hzk.trans hyk.symm⟩)
      have : drop k (y :: r) = drop k r := by simp [drop, hyk]
      rw [this, hrest, List.length_cons]
    · have hk' : k ∈ r.map Prod.fst := by
        rcases List.mem_cons.1 hk with h | h
        · exact absurd h.symm hyk
        · exact h
      have : drop k (y :: r) = y :: drop k r := by simp [drop, hyk]
      rw [this, List.length_cons, List.length_cons, ih hn hk']

theorem keys_run (hn : (r.map Prod.fst).Nodup) : ((c.run r).map Prod.fst).Nodup := by
  have hd : ((drop c.key r).map Prod.fst).Nodup :=
    hn.sublist ((List.filter_sublist (l := r)).map Prod.fst)
  unfold Change.run
  split
  · rw [List.map_append, List.map_singleton, ← List.concat_eq_append]
    refine hd.concat fun hm => ?_
    obtain ⟨y, hy, hyk⟩ := List.mem_map.1 hm
    exact (mem_drop.1 hy).2 hyk
  · exact hd

/-! ## The whole list -/

/-- A change goes through the same way in front of any others. -/
theorem apply_cons : applyChanges (c :: l) b r =
    if c.fails (b.headD false) r then
      ((applyChanges l b.tail r).1, c :: (applyChanges l b.tail r).2)
    else applyChanges l b.tail (c.run r) := rfl

theorem keys_apply (hn : (r.map Prod.fst).Nodup) :
    ((applyChanges l b r).1.map Prod.fst).Nodup := by
  induction l generalizing b r with
  | nil => exact hn
  | cons c l ih =>
    rw [apply_cons]
    split
    · exact ih hn
    · exact ih (keys_run hn)

/-- The effect of a change on a table in which nothing is refused. -/
theorem settle_cons : settle (c :: l) r = settle l (c.run r) := by
  unfold settle
  rw [apply_cons]
  split
  · rename_i hf
    -- a deletion with nothing to delete
    have hc : c.add = false ∧ c.key ∉ r.map Prod.fst := by
      unfold Change.fails at hf
      by_cases h : c.add
      · simp [h] at hf
      · simpa [h] using hf
    have hrun : c.run r = r := by
      unfold Change.run
      rw [if_neg (by simp [hc.1]), drop_eq_self]
      intro y hy hyk
      exact hc.2 (List.mem_map.2 ⟨y, hy, hyk⟩)
    rw [hrun]
    rfl
  · rfl

theorem settle_append (l ds : List (Change κ υ)) (r : List (κ × υ)) :
    settle (l ++ ds) r = settle ds (settle l r) := by
  induction l generalizing r with
  | nil => rfl
  | cons c l ih => rw [List.cons_append, settle_cons, settle_cons, ih]

theorem mayHold_append (l ds : List (Change κ υ)) (r : List (κ × υ)) :
    mayHold (l ++ ds) r = mayHold ds (mayHold l r) := by
  induction l generalizing r with
  | nil => rfl
  | cons c l ih => exact ih _

theorem mayHold_snoc (l : List (Change κ υ)) (c : Change κ υ) (r : List (κ × υ)) :
    mayHold (l ++ [c]) r =
      if c.add then mayHold l r ++ [c.pair] else drop c.key (mayHold l r) := by
  rw [mayHold_append]
  rfl

theorem mayHold_sublist {r' : List (κ × υ)} (h : r.Sublist r') :
    (mayHold l r).Sublist (mayHold l r') := by
  induction l generalizing r r' with
  | nil => exact h
  | cons c l ih =>
    refine ih ?_
    split
    · exact h.append_right _
    · exact h.filter _

theorem mayHold_deletes {ds : List (Change κ υ)} (h : ∀ d ∈ ds, d.add = false) :
    (mayHold (l ++ ds) r).Sublist (mayHold l r) := by
  rw [mayHold_append]
  induction ds generalizing l r with
  | nil => exact List.Sublist.refl _
  | cons d ds ih =>
    rw [mayHold, if_neg (by simp [h d (List.mem_cons_self ..)])]
    have := ih (l := []) (r := drop d.key (mayHold l r))
      fun d hd => h d (List.mem_cons_of_mem _ hd)
    exact this.trans List.filter_sublist

theorem mayHold_adds (ks : List κ) (u : υ) :
    mayHold (l ++ ks.map fun k => ⟨k, true, u⟩) r = mayHold l r ++ ks.map fun k => (k, u) := by
  rw [mayHold_append]
  induction ks generalizing l r with
  | nil => simp [mayHold]
  | cons k ks ih =>
    have := ih (l := []) (r := mayHold l r ++ [(k, u)])
    simpa [mayHold, Change.pair] using this

/-- The table, and the additions that failed, are part of what it may hold,
each at most once. -/
theorem apply_mayHold_aux (hc : OnlyRefusals l b r) (hs : List.Subperm (r ++ e) m)
    (he : ∀ x ∈ e, ∀ d ∈ l, d.key = x.1 → d.add) :
    List.Subperm ((applyChanges l b r).1 ++ (e ++ (applyChanges l b r).2.map Change.pair))
      (mayHold l m) := by
  induction l generalizing b r m e with
  | nil => simpa [applyChanges, mayHold] using hs
  | cons c l ih =>
    obtain ⟨h1, h2⟩ := hc
    rw [apply_cons, mayHold]
    have he' : ∀ x ∈ e, ∀ d ∈ l, d.key = x.1 → d.add :=
      fun x hx d hd => he x hx d (List.mem_cons_of_mem _ hd)
    by_cases hf : c.fails (b.headD false) r
    · obtain ⟨hadd, hno⟩ := h1 hf
      rw [if_pos hf] at h2
      rw [if_pos hf, if_pos hadd]
      have hs' : List.Subperm (r ++ (e ++ [c.pair])) (m ++ [c.pair]) := by
        rw [← List.append_assoc]
        exact (List.subperm_append_right _).2 hs
      have := ih h2 hs' fun x hx d hd => by
        rcases List.mem_append.1 hx with hx | hx
        · exact he' x hx d hd
        · rw [List.mem_singleton.1 hx]
          exact hno d hd
      simpa using this
    · rw [if_neg hf] at h2 ⊢
      refine ih h2 ?_ he'
      by_cases hadd : c.add
      · rw [if_pos hadd, Change.run, if_pos hadd]
        have h3 : List.Subperm (drop c.key r ++ e) m :=
          (((List.filter_sublist (l := r)).append_right e).subperm).trans hs
        have h4 : List.Perm (drop c.key r ++ [c.pair] ++ e) (drop c.key r ++ e ++ [c.pair]) := by
          rw [List.append_assoc, List.append_assoc]
          exact List.perm_append_comm.append_left _
        exact h4.subperm.trans ((List.subperm_append_right _).2 h3)
      · rw [if_neg hadd, Change.run, if_neg hadd]
        have hkeep : e = drop c.key e := (drop_eq_self fun x hx hxk =>
          hadd (he x hx c (List.mem_cons_self ..) hxk.symm)).symm
        rw [hkeep]
        have := hs.filter fun x => decide (x.1 ≠ c.key)
        rwa [List.filter_append] at this

theorem apply_mayHold (hc : OnlyRefusals l b r) :
    List.Subperm ((applyChanges l b r).1 ++ (applyChanges l b r).2.map Change.pair)
      (mayHold l r) := by
  have hs : List.Subperm (r ++ []) r := by simpa using List.Subperm.refl r
  simpa using apply_mayHold_aux (e := []) hc hs (by simp)

/-! ## Additions and deletions of several keys -/

section
variable {ks : List κ} {u : υ}

theorem mem_adds :
    x ∈ settle (ks.map fun k => ⟨k, true, u⟩) r ↔ (x.1 ∈ ks ∧ x.2 = u) ∨ (x ∈ r ∧ x.1 ∉ ks) := by
  induction ks generalizing r with
  | nil => simp [settle, applyChanges]
  | cons k ks ih =>
    rw [List.map_cons, settle_cons, ih, mem_run]
    obtain ⟨a, b⟩ := x
    simp only [Change.pair, Prod.mk.injEq, List.mem_cons]
    by_cases ha : a ∈ ks
    · simp [ha]
    · by_cases hak : a = k
      · subst hak
        simp [ha]
      · simp [ha, hak]

theorem mem_deletes :
    x ∈ settle (ks.map fun k => ⟨k, false, u⟩) r ↔ x ∈ r ∧ x.1 ∉ ks := by
  induction ks generalizing r with
  | nil => simp [settle, applyChanges]
  | cons k ks ih =>
    rw [List.map_cons, settle_cons, ih, mem_run]
    simp only [Bool.false_eq_true, false_and, false_or, List.mem_cons, not_or, and_assoc]

theorem keys_settle (hn : (r.map Prod.fst).Nodup) : ((settle l r).map Prod.fst).Nodup :=
  keys_apply hn

theorem length_add (hn : (r.map Prod.fst).Nodup) (hc : c.add) :
    (c.run r).length = r.length + if c.key ∈ r.map Prod.fst then 0 else 1 := by
  unfold Change.run
  rw [if_pos hc, List.length_append, List.length_singleton]
  split
  · rename_i h
    exact keys_drop_length hn h
  · rename_i h
    rw [drop_eq_self fun y hy hyk => h (List.mem_map.2 ⟨y, hy, hyk⟩)]

theorem length_delete (hn : (r.map Prod.fst).Nodup) (hc : c.add = false) :
    (c.run r).length + (if c.key ∈ r.map Prod.fst then 1 else 0) = r.length := by
  unfold Change.run
  rw [if_neg (by simp [hc])]
  split
  · rename_i h
    exact keys_drop_length hn h
  · rename_i h
    rw [drop_eq_self fun y hy hyk => h (List.mem_map.2 ⟨y, hy, hyk⟩)]
    rfl

/-- `ks` are new: each addition makes one registration. -/
theorem length_adds (hn : (r.map Prod.fst).Nodup) (hk : ks.Nodup) :
    (settle (ks.map fun k => ⟨k, true, u⟩) r).length ≤ r.length + ks.length ∧
      ((settle (ks.map fun k => ⟨k, true, u⟩) r).length = r.length + ks.length ↔
        ∀ k ∈ ks, k ∉ r.map Prod.fst) := by
  induction ks generalizing r with
  | nil => simp [settle, applyChanges]
  | cons k ks ih =>
    obtain ⟨hk1, hk2⟩ := List.nodup_cons.1 hk
    have hlen := length_add (c := ⟨k, true, u⟩) hn rfl
    obtain ⟨hle, hiff⟩ := ih (keys_run (c := ⟨k, true, u⟩) hn) hk2
    rw [List.map_cons, settle_cons, List.length_cons]
    split at hlen
    · rename_i hin
      refine ⟨by omega, ⟨fun h => by omega, fun h => absurd hin (h k (List.mem_cons_self ..))⟩⟩
    · rename_i hin
      refine ⟨by omega, ?_⟩
      have hrest : (∀ q ∈ ks, q ∉ (Change.run ⟨k, true, u⟩ r).map Prod.fst) ↔
          ∀ q ∈ ks, q ∉ r.map Prod.fst := by
        refine forall₂_congr fun q hq => not_congr ?_
        have hqk : q ≠ k := fun h => hk1 (h ▸ hq)
        simp only [List.mem_map, mem_run, Change.pair]
        constructor
        · intro h
          obtain ⟨y, hy, hyq⟩ := h
          rcases hy with ⟨-, rfl⟩ | ⟨hy, -⟩
          · exact absurd hyq.symm hqk
          · exact ⟨y, hy, hyq⟩
        · intro h
          obtain ⟨y, hy, hyq⟩ := h
          exact ⟨y, .inr ⟨hy, fun h => hqk (hyq.symm.trans h)⟩, hyq⟩
      rw [List.forall_mem_cons, ← hrest, ← hiff]
      constructor
      · intro h
        exact ⟨hin, by omega⟩
      · intro h
        have := h.2
        omega

/-- `ks` are registered: each deletion ends one registration. -/
theorem length_deletes (hn : (r.map Prod.fst).Nodup) (hk : ks.Nodup) :
    r.length ≤ (settle (ks.map fun k => ⟨k, false, u⟩) r).length + ks.length ∧
      ((settle (ks.map fun k => ⟨k, false, u⟩) r).length + ks.length = r.length ↔
        ∀ k ∈ ks, k ∈ r.map Prod.fst) := by
  induction ks generalizing r with
  | nil => simp [settle, applyChanges]
  | cons k ks ih =>
    obtain ⟨hk1, hk2⟩ := List.nodup_cons.1 hk
    have hlen := length_delete (c := ⟨k, false, u⟩) hn rfl
    obtain ⟨hle, hiff⟩ := ih (keys_run (c := ⟨k, false, u⟩) hn) hk2
    rw [List.map_cons, settle_cons, List.length_cons]
    split at hlen
    · rename_i hin
      refine ⟨by omega, ?_⟩
      have hrest : (∀ q ∈ ks, q ∈ (Change.run ⟨k, false, u⟩ r).map Prod.fst) ↔
          ∀ q ∈ ks, q ∈ r.map Prod.fst := by
        refine forall₂_congr fun q hq => ?_
        have hqk : q ≠ k := fun h => hk1 (h ▸ hq)
        simp only [List.mem_map, mem_run, Bool.false_eq_true, false_and, false_or]
        constructor
        · intro h
          obtain ⟨y, hy, hyq⟩ := h
          exact ⟨y, hy.1, hyq⟩
        · intro h
          obtain ⟨y, hy, hyq⟩ := h
          exact ⟨y, ⟨hy, fun h => hqk (hyq.symm.trans h)⟩, hyq⟩
      rw [List.forall_mem_cons, ← hrest, ← hiff]
      constructor
      · intro h
        exact ⟨hin, by omega⟩
      · intro h
        have := h.2
        omega
    · rename_i hin
      refine ⟨by omega, ⟨fun h => by omega, fun h => absurd (h k (List.mem_cons_self ..)) hin⟩⟩

end

/-! ## What fails without a refusal -/

theorem failed_append (l ds : List (Change κ υ)) (r : List (κ × υ)) :
    (applyChanges (l ++ ds) [] r).2 =
      (applyChanges l [] r).2 ++ (applyChanges ds [] (settle l r)).2 := by
  induction l generalizing r with
  | nil => rfl
  | cons c l ih =>
    have hrun : c.fails false r → settle (c :: l) r = settle l r := fun hf => by
      rw [settle, apply_cons, List.headD_nil, if_pos hf]
      rfl
    rw [List.cons_append, apply_cons, apply_cons, List.headD_nil, List.tail_nil]
    split
    · rw [ih, hrun ‹_›]
      rfl
    · rw [ih, settle_cons]

theorem failed_adds (ks : List κ) (u : υ) (r : List (κ × υ)) :
    (applyChanges (ks.map fun k => (⟨k, true, u⟩ : Change κ υ)) [] r).2 = [] := by
  induction ks generalizing r with
  | nil => rfl
  | cons k ks ih =>
    rw [List.map_cons, apply_cons, if_neg (by simp [Change.fails])]
    exact ih _

theorem failed_deletes {ks : List κ} {u : υ} (hk : ks.Nodup) (h : ∀ k ∈ ks, k ∈ r.map Prod.fst) :
    (applyChanges (ks.map fun k => (⟨k, false, u⟩ : Change κ υ)) [] r).2 = [] := by
  induction ks generalizing r with
  | nil => rfl
  | cons k ks ih =>
    obtain ⟨hk1, hk2⟩ := List.nodup_cons.1 hk
    rw [List.map_cons, apply_cons,
      if_neg (by simpa [Change.fails] using h k (List.mem_cons_self ..))]
    refine ih hk2 fun q hq => ?_
    obtain ⟨y, hy, rfl⟩ := List.mem_map.1 (h q (List.mem_cons_of_mem _ hq))
    exact List.mem_map.2 ⟨y, mem_run.2 (.inr ⟨hy, fun he => hk1 (by rwa [show y.1 = k from he] at hq)⟩), rfl⟩

/-- The kernel refuses additions only. -/
theorem apply_deletes (h : ∀ c ∈ l, c.add = false) : applyChanges l b r = applyChanges l [] r := by
  induction l generalizing b r with
  | nil => rfl
  | cons c l ih =>
    have hf : ∀ x, c.fails x r = c.fails false r := fun x => by
      simp [Change.fails, h c (List.mem_cons_self ..)]
    have hl : ∀ d ∈ l, d.add = false := fun d hd => h d (List.mem_cons_of_mem _ hd)
    rw [apply_cons, apply_cons, hf, hf, ih hl, ih hl (b := b.tail)]
    rfl

/-! ## What was refused -/

/-- A refusal only ever leaves registrations out. -/
theorem keys_apply_subset {r' : List (κ × υ)} (h : r.map Prod.fst ⊆ r'.map Prod.fst) :
    (applyChanges l b r).1.map Prod.fst ⊆ (settle l r').map Prod.fst := by
  induction l generalizing b r r' with
  | nil => exact h
  | cons c l ih =>
    have hrun : (c.run r).map Prod.fst ⊆ (c.run r').map Prod.fst := by
      intro k hk
      obtain ⟨y, hy, rfl⟩ := List.mem_map.1 hk
      rcases mem_run.1 hy with ⟨hc, rfl⟩ | ⟨hy, hyk⟩
      · exact List.mem_map.2 ⟨c.pair, mem_run.2 (.inl ⟨hc, rfl⟩), rfl⟩
      · obtain ⟨z, hz, hzy⟩ := List.mem_map.1 (h (List.mem_map.2 ⟨y, hy, rfl⟩))
        exact List.mem_map.2 ⟨z, mem_run.2 (.inr ⟨hz, by rwa [hzy]⟩), hzy⟩
    rw [apply_cons, settle_cons]
    split
    · rename_i hf
      refine ih fun k hk => ?_
      obtain ⟨y, hy, rfl⟩ := List.mem_map.1 hk
      obtain ⟨z, hz, hzy⟩ := List.mem_map.1 (h hk)
      by_cases hyk : y.1 = c.key
      · -- a deletion does not fail here
        unfold Change.fails at hf
        by_cases hc : c.add
        · exact List.mem_map.2 ⟨c.pair, mem_run.2 (.inl ⟨hc, rfl⟩), hyk.symm⟩
        · rw [if_neg hc] at hf
          exact absurd (hyk ▸ List.mem_map.2 ⟨y, hy, rfl⟩) (of_decide_eq_true hf)
      · exact List.mem_map.2 ⟨z, mem_run.2 (.inr ⟨hz, by rwa [hzy]⟩), hzy⟩
    · exact ih hrun

/-- A registration that the changes lead to is there, or was refused. -/
theorem mem_apply_or_failed {e : List (κ × υ)} {r' : List (κ × υ)}
    (h : ∀ y ∈ r', y ∈ r ∨ y ∈ e) (hx : x ∈ settle l r') :
    x ∈ (applyChanges l b r).1 ∨ x ∈ e ++ (applyChanges l b r).2.map Change.pair := by
  induction l generalizing b r r' e with
  | nil => exact (h x hx).imp_right fun h => List.mem_append_left _ h
  | cons c l ih =>
    rw [settle_cons] at hx
    rw [apply_cons]
    split
    · have := ih (b := b.tail) (r := r) (e := e ++ [c.pair]) (fun y hy => ?_) hx
      · simpa using this
      · rcases mem_run.1 hy with ⟨-, rfl⟩ | ⟨hy, -⟩
        · exact .inr (by simp)
        · exact (h y hy).imp_right fun h => List.mem_append_left _ h
    · refine ih (fun y hy => ?_) hx
      rcases mem_run.1 hy with hy' | ⟨hy, hyk⟩
      · exact .inl (mem_run.2 (.inl hy'))
      · exact (h y hy).imp_left fun h => mem_run.2 (.inr ⟨h, hyk⟩)

/-- What the changes lead to depends on the registrations that stay. -/
theorem settle_of_mem {r' : List (κ × υ)} (h : x ∈ r → x ∈ r') (hx : x ∈ settle l r) :
    x ∈ settle l r' := by
  induction l generalizing r r' with
  | nil => exact h hx
  | cons c l ih =>
    rw [settle_cons] at hx ⊢
    refine ih (fun hr => ?_) hx
    rcases mem_run.1 hr with hr | ⟨hr, hk⟩
    · exact mem_run.2 (.inl hr)
    · exact mem_run.2 (.inr ⟨h hr, hk⟩)

end

end Kqueue
end Mnthr

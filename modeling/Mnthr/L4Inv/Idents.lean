import Mnthr.L3Micro.Frame
import Mnthr.L4Inv.Waitqs

/-!
# The identity of threads

`co.id` is what tells a thread from the one that had its context before, and
-1 what tells it from none. A timed wait compares the id it remembers with the
one its target has now. Whether the comparison is right is a question about
history: `IdHist` counts the threads that each context has had, and keeps the
count that the target of a wait had reached when the wait began.

`Identified` is the purpose of the ids. A step that creates no thread keeps
it; one that creates a thread keeps it exactly when the value of `co_id` is
`FreshId` (`identified_step`). `co_id` counts the creations around the end of
the integers (`coId_step`), so the first 2 ^ 32 - 1 values are fresh
(`fresh_of_few`).
-/
namespace Mnthr
open St

/-- `born c` threads have been created in context `c`; `awaited t` of them had
been created in its target when thread `t` last began a timed wait. -/
structure IdHist where
  born : Ptr → Nat
  awaited : Ptr → Nat

def IdHist.empty : IdHist := ⟨fun _ => 0, fun _ => 0⟩

namespace St

def bornAfter (s : St) (e : Event) (g : IdHist) : Ptr → Nat :=
  match s.creates e with
  | some c => Function.update g.born c (g.born c + 1)
  | none => g.born

/-- The context that the event may begin a timed wait on, with the id that is
remembered for it. -/
def awaits (s : St) (e : Event) : Option (Ptr × Int) := (s.suspends e).bind Call.target

/-- The history after the event. -/
def identify (s : St) (e : Event) (_ : St) (g : IdHist) : IdHist where
  born := s.bornAfter e g
  awaited :=
    match s.pc.runs, s.awaits e with
    | some t, some (x, _) => Function.update g.awaited t (s.bornAfter e g x)
    | _, _ => g.awaited

end St

/-- The machine with the history of its ids. -/
def idents (D : Diag) := recorded (St.step D) St.identify

/-- Who has a thread is not dead, no two threads have one id, and an id that a
waiter finds unchanged is that of the thread it began to wait for. -/
structure Identified (p : St × IdHist) : Prop where
  alive : ∀ c, (p.1.ctx c).f ≠ none → p.1.isDead c = false
  unique : ∀ c d, (p.1.ctx c).f ≠ none → (p.1.ctx d).f ≠ none →
    (p.1.ctx c).id = (p.1.ctx d).id → c = d
  original : ∀ t x n, p.1.remembers t x n → (p.1.ctx x).f ≠ none → (p.1.ctx x).id = n →
    p.2.born x = p.2.awaited t

/-- A thread that is created gets an id that is not -1, that no other thread
has, and that no waiter remembers for its context. -/
def FreshId (s : St) (e : Event) : Prop :=
  ∀ c, s.creates e = some c → s.coId ≠ -1 ∧
    (∀ d, d ≠ c → (s.ctx d).f ≠ none → (s.ctx d).id ≠ s.coId) ∧ ∀ t, ¬ s.remembers t c s.coId

/-- Nobody waits for a thread that is still to come. -/
structure IdInv (p : St × IdHist) : Prop where
  inv : Inv p.1
  past : ∀ t x n, p.1.remembers t x n → p.2.awaited t ≤ p.2.born x

/-! ## The history -/

section
variable {D : Diag} {s s1 s' u : St} {e : Event} {c t x : Ptr} {n : Int} {g : IdHist}

theorem born_created (h : s.creates e = some c) : (s.identify e s' g).born c = g.born c + 1 := by
  simp [identify, bornAfter, h]

theorem born_other (h : s.creates e ≠ some x) : (s.identify e s' g).born x = g.born x := by
  unfold identify bornAfter
  cases hc : s.creates e with
  | none => rfl
  | some c => exact Function.update_of_ne (fun heq => h (by rw [hc, heq])) ..

theorem born_le : g.born x ≤ (s.identify e s' g).born x := by
  by_cases h : s.creates e = some x
  · rw [born_created h]; omega
  · rw [born_other h]

theorem awaited_begun (hr : s.pc.runs = some t) (h : s.awaits e = some (x, n)) :
    (s.identify e s' g).awaited t = (s.identify e s' g).born x := by
  simp [identify, hr, h]

theorem awaited_other (h : s.pc.runs = some t → s.awaits e = none) :
    (s.identify e s' g).awaited t = g.awaited t := by
  unfold identify
  cases hr : s.pc.runs with
  | none => rfl
  | some t' =>
    cases ha : s.awaits e with
    | none => rfl
    | some p =>
      refine Function.update_of_ne (fun heq => ?_) ..
      rw [h (heq ▸ hr)] at ha
      cases ha

/-! ## What one event does to the ids -/

/-- A timed wait is begun by a thread between calls. -/
theorem awaits_user (h : s.awaits e ≠ none) (hs : s.step D e = some s') : ∃ c, s.pc = .user c := by
  cases e with
  | block op b =>
    simp only [step] at hs
    split at hs
    · exact ⟨_, ‹_›⟩
    · cases hs
  | cont b =>
    refine absurd ?_ h
    simp only [awaits, suspends]
    cases s.pc.call with
    | none => rfl
    | some k => cases k <;> rfl
  | _ => exact absurd rfl h

/-- Threads are created between calls. -/
theorem creates_pc (h : s.creates e ≠ none) (hs : s.step D e = some s') (k : Call) :
    s.pc ≠ .post t k := by
  intro hpc
  cases e with
  | call op => simp [step, mayCall, hpc] at hs
  | block op b => simp [step, hpc] at hs
  | _ => exact h rfl

/-- Who begins a wait remembered nothing before. -/
theorem awaited_kept (hI : Inv s) (hs : s.step D e = some s') (h : s.remembers t x n) :
    (s.identify e s' g).awaited t = g.awaited t := by
  refine awaited_other fun hr => ?_
  obtain ⟨k, hk, -⟩ := WInv.remembers_running hI hr h
  by_contra ha
  obtain ⟨c, hc⟩ := awaits_user ha hs
  rw [hk] at hc
  cases hc

/-- What the micro-steps after `s1` leave of the ids: nobody comes to life, and
a wait that is remembered was, or is begun by the event. -/
structure IdFrame (s : St) (e : Event) (s1 u : St) : Prop where
  inv : Inv u
  life : ∀ x, (u.ctx x).f ≠ none → (s1.ctx x).f ≠ none ∧ (u.ctx x).id = (s1.ctx x).id
  runs : ∀ k t, s.suspends e = some k → u.pc.runs = some t → s1.pc.runs = some t
  past : ∀ t x n, u.remembers t x n → s1.remembers t x n ∨
    s1.pc.runs = some t ∧ s.awaits e = some (x, n)

/-- Contexts are switched to by events that suspend nobody. -/
theorem may_enter {poll : Bool} (h : May s e (.enter t poll)) : s.suspends e = none := by
  cases poll with
  | true => obtain ⟨rc, rfl, -⟩ := h; rfl
  | false => obtain ⟨rfl, -⟩ := h; rfl

theorem remembers_micro {a : Act} {v : St} (hv : Inv v) (hM : May s e a) (hm : Micro D a u v)
    (h : v.remembers t x n) :
    u.remembers t x n ∨ u.pc.runs = some t ∧ s.awaits e = some (x, n) ∧ s.suspends e ≠ none ∧
      (u.ctx x).id = n := by
  have hne : a ≠ .create t := by intro heq; subst heq; exact hM
  have alive : (v.ctx t).f ≠ none → (u.ctx t).f ≠ none := fun hf => (alive_before hm hne hf).1
  rcases h with ⟨hf, ht⟩ | ⟨k, hpc, ht⟩
  · rcases uc_cases (t := t) hm with hu | ⟨k, b, rfl, hu⟩ | ⟨d, k, b, dormant, rfl, hu⟩ |
      ⟨heq, -⟩ | ⟨poll, -, hu⟩
    · exact .inl (.inl ⟨alive hf, hu ▸ ht⟩)
    · cases hm with
      | yield hpc hk hk0 => rw [hu, hk0] at ht; cases ht
    · obtain ⟨-, hsus, -⟩ := hM
      rw [hu] at ht
      cases hm with
      | sleepYield hpc hk hid =>
        exact .inr ⟨by rw [hpc]; rfl, by rw [awaits, hsus]; exact ht, by rw [hsus]; simp,
          (hid x n ht).1⟩
    · exact absurd heq hne
    · rw [hu] at ht; cases ht
  · left
    rcases post_micro hm hpc with hp | ⟨poll, -, hu⟩
    · exact .inr ⟨k, hp, ht⟩
    · refine .inl ⟨alive (hv.live t (hv.run t ?_)), hu ▸ ht⟩
      rw [hpc]; rfl

theorem idFrame_micro {a : Act} {v : St} (h : IdFrame s e s1 u) (hM : May s e a)
    (hm : Micro D a u v) : IdFrame s e s1 v := by
  have hv := inv_micro h.inv hm
  refine ⟨hv, fun x hf => ?_, fun k t hk ht => ?_, fun t x n hr => ?_⟩
  · have hne : a ≠ .create x := by intro heq; subst heq; exact hM
    obtain ⟨hfu, hid, -⟩ := alive_before hm hne hf
    obtain ⟨hf1, hid1⟩ := h.life x hfu
    exact ⟨hf1, hid.trans hid1⟩
  · rcases runs_micro hm ht with hu | ⟨poll, rfl⟩
    · exact h.runs k t hk hu
    · rw [may_enter hM] at hk
      cases hk
  · rcases remembers_micro hv hM hm hr with hu | ⟨hu, ha, hsus, -⟩
    · exact h.past t x n hu
    · obtain ⟨k, hk⟩ := Option.ne_none_iff_exists'.1 hsus
      exact .inr ⟨h.runs k t hk hu, ha⟩

/-- The events that create a thread end none, and switch to none. -/
theorem may_creates {a : Act} (hc : s.creates e ≠ none) (hM : May s e a) (poll : Bool) :
    (a ≠ .die x ∧ a ≠ .discard x poll ∧ a ≠ .release x) ∧ a ≠ .enter x poll := by
  refine ⟨⟨?_, ?_, ?_⟩, ?_⟩ <;> intro heq <;> subst heq
  · obtain ⟨rfl, -⟩ := hM; exact hc rfl
  · cases poll with
    | true => obtain ⟨rc, rfl, -⟩ := hM; exact hc rfl
    | false => obtain ⟨rfl, -⟩ := hM; exact hc rfl
  · obtain ⟨rfl, -⟩ := hM; exact hc rfl
  · cases poll with
    | true => obtain ⟨rc, rfl, -⟩ := hM; exact hc rfl
    | false => obtain ⟨rfl, -⟩ := hM; exact hc rfl

/-- What the micro-steps of an event that creates a thread keep: who is alive,
and what sleepers remember. -/
structure IdKept (s1 u : St) : Prop where
  inv : Inv u
  life : ∀ x, (s1.ctx x).f ≠ none → (u.ctx x).f ≠ none ∧ (u.ctx x).id = (s1.ctx x).id
  uc : ∀ t, (s1.ctx t).uc.target ≠ none → (u.ctx t).uc = (s1.ctx t).uc

theorem idKept_micro {a : Act} {v : St} (hc : s.creates e ≠ none) (h : IdKept s1 u)
    (hM : May s e a) (hm : Micro D a u v) : IdKept s1 v := by
  have hne : ∀ x, a ≠ .create x := by intro x heq; subst heq; exact hM
  refine ⟨inv_micro h.inv hm, fun x hf => ?_, fun t ht => ?_⟩
  · obtain ⟨hfu, hidu⟩ := h.life x hf
    obtain ⟨hfv, hidv, -⟩ := life_micro hm (hne x) fun poll => (may_creates hc hM poll).1
    exact ⟨hfv ▸ hfu, hidv.trans hidu⟩
  · have hu := h.uc t ht
    have hr : u.pc.runs ≠ some t := by
      intro hr
      rcases h.inv.ucRun t hr with h0 | h0
      all_goals
        rw [← hu, h0] at ht
        exact ht rfl
    exact (uc_micro hm hr (hne t) fun poll => (may_creates hc hM poll).2).trans hu

/-! ## Before and after an event -/

theorem idFrame_step (hI : Inv s) (hs : s.step D e = some s') :
    ∃ s1, Begin D s e s1 ∧ IdFrame s e s1 s' ∧ (s.creates e ≠ none → IdKept s1 s') := by
  obtain ⟨s1, hb, hch⟩ := step_micro hI.base hs
  have h1 := inv_begin hI hb
  have hF : IdFrame s e s1 s1 :=
    ⟨h1, fun x hf => ⟨hf, rfl⟩, fun _ t _ ht => ht, fun t x n hr => .inl hr⟩
  have hK : IdKept s1 s1 := ⟨h1, fun x hf => ⟨hf, rfl⟩, fun t _ => rfl⟩
  exact ⟨s1, hb, hch.inv (fun _ _ _ hM hm h => idFrame_micro h hM hm) hF,
    fun hc => hch.inv (fun _ _ _ hM hm h => idKept_micro hc h hM hm) hK⟩

/-- Who has a thread had it before, with the same id, or has just got one. -/
theorem alive_or_created (hI : Inv s) (hs : s.step D e = some s') (hf : (s'.ctx x).f ≠ none) :
    (s.creates e = some x ∧ (s'.ctx x).id = s.coId) ∨
      (s.creates e ≠ some x ∧ (s.ctx x).f ≠ none ∧ (s'.ctx x).id = (s.ctx x).id) := by
  obtain ⟨s1, hb, hF, -⟩ := idFrame_step hI hs
  obtain ⟨hf1, hid⟩ := hF.life x hf
  by_cases hx : s.creates e = some x
  · left
    cases hb with
    | same hc => rw [hc] at hx; cases hx
    | create hc hm =>
      cases hc.symm.trans hx
      exact ⟨hx, hid.trans (create_frame hm).2.2.2.2⟩
  · have heq := (hb.sameFor hx).ctx
    exact .inr ⟨hx, heq ▸ hf1, hid.trans (by rw [heq])⟩

/-- A wait that is remembered was, or begins. -/
theorem remembers_step (hI : Inv s) (hs : s.step D e = some s') (h : s'.remembers t x n) :
    s.remembers t x n ∨ s.pc.runs = some t ∧ s.awaits e = some (x, n) := by
  obtain ⟨s1, hb, hF, -⟩ := idFrame_step hI hs
  cases hb with
  | same hc => exact hF.past t x n h
  | @create c _ hc hm =>
    obtain ⟨hpc, -, -, huc, -⟩ := create_frame hm
    have h1 := hF.past t x n h
    rw [hpc] at h1
    refine h1.imp_left fun hr => ?_
    rcases hr with ⟨hf, ht⟩ | ⟨k, hk, ht⟩
    · have htc : c ≠ t := by
        intro heq
        subst heq
        rw [huc] at ht
        cases ht
      rw [(micro_sameFor hm (by simpa [Act.subject] using htc)).ctx] at hf ht
      exact .inl ⟨hf, ht⟩
    · exact .inr ⟨k, hpc ▸ hk, ht⟩

/-- The created thread has the value of `co_id`. -/
theorem created_step (hI : Inv s) (hs : s.step D e = some s') (hc : s.creates e = some c) :
    (s'.ctx c).f ≠ none ∧ (s'.ctx c).id = s.coId := by
  obtain ⟨s1, hb, -, hK⟩ := idFrame_step hI hs
  cases hb with
  | same hc' => rw [hc] at hc'; cases hc'
  | create hc' hm =>
    cases hc.symm.trans hc'
    obtain ⟨-, -, hf, -, hid⟩ := create_frame hm
    obtain ⟨hf', hid'⟩ := (hK (by rw [hc]; simp)).life c hf
    exact ⟨hf', hid'.trans hid⟩

/-- A thread is created in a context marked as dead, or never used. -/
theorem creates_unused (hI : Inv s) (hs : s.step D e = some s') (hc : s.creates e = some c) :
    (s.ctx c).id = -1 ∨ (s.ctx c).f = none := by
  obtain ⟨s1, hb, -⟩ := idFrame_step hI hs
  cases hb with
  | same hc' => rw [hc] at hc'; cases hc'
  | create hc' hm =>
    cases hc.symm.trans hc'
    cases hm with
    | createFree _ hid => exact .inl hid
    | createNew => exact .inr (hI.fresh _ (Nat.le_refl _))

/-- A creation ends no other thread, and no wait. -/
theorem kept_step (hI : Inv s) (hs : s.step D e = some s') (hc : s.creates e = some c)
    (hx : x ≠ c) : ((s.ctx x).f ≠ none → (s'.ctx x).f ≠ none ∧ (s'.ctx x).id = (s.ctx x).id) ∧
      ((s.ctx x).uc.target ≠ none → (s'.ctx x).uc = (s.ctx x).uc) := by
  obtain ⟨s1, hb, -, hK⟩ := idFrame_step hI hs
  have hK := hK (by rw [hc]; simp)
  have heq : s1.ctx x = s.ctx x := (hb.sameFor (by rw [hc]; simpa using hx.symm)).ctx
  have hlife := hK.life x
  have huc := hK.uc x
  rw [heq] at hlife huc
  exact ⟨hlife, huc⟩

/-! ## The step lemma -/

end

section
variable {D : Diag} {p p' : St × IdHist} {e : Event}

theorem idInv_init (objs : Objs) (now : Nat) : IdInv (St.init objs now, .empty) :=
  ⟨inv_init objs now, fun _ _ _ _ => Nat.le_refl 0⟩

theorem identified_init (objs : Objs) (now : Nat) : Identified (St.init objs now, .empty) := by
  constructor <;> simp [St.init, Ctx.init]

theorem idInv_step (h : IdInv p) (hs : idents D p e = some p') : IdInv p' := by
  obtain ⟨hstep, hg⟩ := recorded_step hs
  refine ⟨inv_step h.inv hstep, fun t x n hr => ?_⟩
  rw [hg]
  rcases remembers_step h.inv hstep hr with h0 | ⟨hrun, ha⟩
  · rw [awaited_kept h.inv hstep h0]
    exact (h.past t x n h0).trans born_le
  · exact (awaited_begun hrun ha).le

/-- A fresh id keeps all threads identified. -/
theorem identified_of_fresh (hI : IdInv p) (h : Identified p) (hc : FreshId p.1 e)
    (hs : idents D p e = some p') : Identified p' := by
  obtain ⟨hstep, hg⟩ := recorded_step hs
  have alive : ∀ {x}, (p'.1.ctx x).f ≠ none → _ := fun hf => alive_or_created hI.inv hstep hf
  refine ⟨fun c hf => ?_, fun c d hfc hfd hid => ?_, fun t x n hr hf hid => ?_⟩
  · rcases alive hf with ⟨hcr, hid⟩ | ⟨-, hf0, hid⟩
    · simpa [isDead, hid] using (hc c hcr).1
    · have h0 := h.alive c hf0
      rwa [isDead, ← hid] at h0
  · rcases alive hfc with ⟨hcr, hidc⟩ | ⟨hcr, hf0, hidc⟩ <;>
      rcases alive hfd with ⟨hdr, hidd⟩ | ⟨hdr, hd0, hidd⟩
    · exact Option.some.inj (hcr.symm.trans hdr)
    · by_contra hne
      exact (hc c hcr).2.1 d (Ne.symm hne) hd0 (hidd.symm.trans (hid.symm.trans hidc))
    · by_contra hne
      exact (hc d hdr).2.1 c hne hf0 (hidc.symm.trans (hid.trans hidd))
    · exact h.unique c d hf0 hd0 (hidc.symm.trans (hid.trans hidd))
  · rw [hg]
    rcases remembers_step hI.inv hstep hr with h0 | ⟨hrun, ha⟩
    swap
    · exact (awaited_begun hrun ha).symm
    rw [awaited_kept hI.inv hstep h0]
    rcases alive hf with ⟨hcr, hidx⟩ | ⟨hcr, hf0, hidx⟩
    · rw [← hid, hidx] at h0
      exact absurd h0 ((hc x hcr).2.2 t)
    · rw [born_other hcr]
      exact h.original t x n h0 hf0 (hidx.symm.trans hid)

/-- All threads are identified only if the id was fresh. -/
theorem fresh_of_identified (hI : IdInv p) (h : Identified p) (hs : idents D p e = some p')
    (h' : Identified p') : FreshId p.1 e := by
  obtain ⟨hstep, hg⟩ := recorded_step hs
  intro c hc
  obtain ⟨hfc, hidc⟩ := created_step hI.inv hstep hc
  refine ⟨?_, fun d hd hfd hid => ?_, fun t hr => ?_⟩
  · simpa [isDead, hidc] using h'.alive c hfc
  · obtain ⟨hfd', hidd⟩ := (kept_step hI.inv hstep hc hd).1 hfd
    exact hd (h'.unique d c hfd' hfc (hidd.trans (hid.trans hidc.symm)))
  · -- a waiter that remembers the id takes the new thread for its target
    have hr' : p'.1.remembers t c p.1.coId := by
      rcases hr with ⟨hf, ht⟩ | ⟨k, hk, -⟩
      swap
      · exact absurd hk (creates_pc (by rw [hc]; simp) hstep k)
      have htc : t ≠ c := by
        intro heq
        subst heq
        rcases creates_unused hI.inv hstep hc with hid | hf0
        · have hal := h.alive t hf
          simp [isDead, hid] at hal
        · exact hf hf0
      obtain ⟨hlife, huc⟩ := kept_step hI.inv hstep hc htc
      exact .inl ⟨(hlife hf).1, by rw [huc (by rw [ht]; simp), ht]⟩
    have hborn := h'.original t c p.1.coId hr' hfc hidc
    rw [hg, born_created hc, awaited_kept hI.inv hstep hr] at hborn
    have := hI.past t c p.1.coId hr
    omega

theorem identified_step (hI : IdInv p) (h : Identified p) (hs : idents D p e = some p') :
    Identified p' ↔ FreshId p.1 e :=
  ⟨fresh_of_identified hI h hs, fun hc => identified_of_fresh hI h hc hs⟩

end

/-! ## How many threads it takes -/

/-- The events that create a thread, in whatever state. -/
def Event.spawns : Event → Bool
  | .call (.new _) | .call (.newSig _) | .call (.spawn _) | .call (.spawnSig _)
  | .block (.waitFor _ _) _ => true
  | _ => false

theorem spawns_iff {s : St} {e : Event} : e.spawns ↔ s.creates e ≠ none := by
  cases e with
  | call op => cases op <;> simp [Event.spawns, creates]
  | block op b => cases op <;> simp [Event.spawns, creates]
  | _ => simp [Event.spawns, creates]

/-- An id that one of the first `k` threads may have had, or none. -/
def Issued (k : Nat) (n : Int) : Prop := n = -1 ∨ ∃ j < k, n = (j : Int).bmod (2 ^ 32)

theorem Issued.mono {k l : Nat} {n : Int} (hkl : k ≤ l) (h : Issued k n) : Issued l n :=
  h.imp_right fun ⟨j, hj, hn⟩ => ⟨j, hj.trans_le hkl, hn⟩

/-- The ids of the first 2 ^ 32 - 1 threads are all different, and none is -1. -/
theorem not_issued {k : Nat} (hk : k < 2 ^ 32 - 1) : ¬ Issued k ((k : Int).bmod (2 ^ 32)) ∧
    (k : Int).bmod (2 ^ 32) ≠ -1 := by
  constructor
  · rintro (h | ⟨j, hj, h⟩)
    all_goals
      simp only [Int.bmod_def] at h
      omega
  · intro h
    simp only [Int.bmod_def] at h
    omega

section
variable {D : Diag} {s s1 s' u : St} {e : Event} {c t x : Ptr} {k : Nat} {n : Int}

theorem coId_micro {a : Act} (hm : Micro D a s s') (hc : ∀ c, a ≠ .create c) :
    s'.coId = s.coId := by
  cases hm with
  | createFree | createNew => exact absurd rfl (hc _)
  | wake => unfold woken; split <;> rfl
  | discard hpc hp => cases hp <;> rfl
  | enter hpc hp hst hs =>
    rcases enter_cases hs with ⟨-, rfl⟩ | ⟨-, -, rfl⟩ <;> cases hp <;> rfl
  | sift hs =>
    obtain ⟨-, -, -, rfl⟩ := sift_cases hs
    rfl
  | _ => rfl

theorem coId_spawn {p : Ptr × St} {f : Nat} (h : spawn p f = some s') (hp : p.2.coId = s.coId) :
    s'.coId = (s.coId + 1).bmod (2 ^ 32) := by
  obtain ⟨r, h1, h2⟩ := Option.bind_eq_some_iff.1 h
  rw [← vnew_coId h1 hp]
  refine (run_micro (D := .sample) h2).inv (I := fun u => u.coId = r.2.coId) ?_ rfl
  intro a u v ha hm hu
  subst ha
  exact (coId_micro hm fun c => by simp).trans hu

theorem coId_kept (hI : Inv s) (hc : s.creates e = none) (hs : s.step D e = some s') :
    s'.coId = s.coId := by
  obtain ⟨s1, hb, hch⟩ := step_micro hI.base hs
  cases hb with
  | create hc' hm => rw [hc] at hc'; cases hc'
  | same =>
    refine hch.inv (I := fun u => u.coId = s.coId) ?_ rfl
    intro a u v hM hm hu
    exact (coId_micro hm fun c heq => by subst heq; exact hM).trans hu

theorem coId_waitFor {v f : Nat} {b : Bool} (hI : Inv s) (hpc : s.pc = .user c)
    (h : s.waitFor v f b = some s') : s'.coId = (s.coId + 1).bmod (2 ^ 32) := by
  have hme : s.me = some c := hI.me c (by rw [hpc]; rfl)
  obtain ⟨s1, x, -, -, -, -, -, -, -, -, hco, hy⟩ := waitFor_cases (D := .sample) hpc hme h
  have hkept := coId_micro hy fun c => by simp
  exact hkept.trans hco

/-- `co_id` counts the creations. -/
theorem coId_step (hI : Inv s) (hs : s.step D e = some s') :
    s'.coId = if e.spawns then (s.coId + 1).bmod (2 ^ 32) else s.coId := by
  by_cases he : e.spawns
  swap
  · rw [if_neg he]
    exact coId_kept hI (not_not.1 fun hc => he (spawns_iff.2 hc)) hs
  rw [if_pos he]
  cases e with
  | call op =>
    simp only [step] at hs
    split at hs
    swap
    · cases hs
    cases op with
    | new f =>
      obtain ⟨r, h1, rfl⟩ := Option.map_eq_some_iff.1 hs
      exact vnew_coId h1 popFree_coId
    | newSig f =>
      obtain ⟨r, h1, rfl⟩ := Option.map_eq_some_iff.1 hs
      exact vnew_coId h1 rfl
    | spawn f => exact coId_spawn hs popFree_coId
    | spawnSig f => exact coId_spawn hs rfl
    | _ => cases he
  | block op b =>
    cases op with
    | waitFor v f =>
      simp only [step] at hs
      split at hs
      swap
      · cases hs
      rename_i c hpc
      simp only [St.block, Option.ite_none_right_eq_some] at hs
      exact coId_waitFor hI hpc hs.2.2
    | _ => cases he
  | _ => cases he

/-- A micro-step that creates no thread changes no id but to -1. -/
theorem id_micro {a : Act} (hm : Micro D a s s') (hc : a ≠ .create x) :
    (s'.ctx x).id = (s.ctx x).id ∨ (s'.ctx x).id = -1 := by
  by_cases hd : ∀ poll, a ≠ .die x ∧ a ≠ .discard x poll ∧ a ≠ .release x
  · exact .inl (life_micro hm hc hd).2.1
  right
  obtain ⟨poll, ha⟩ := not_forall.1 hd
  have ha : a = .die x ∨ a = .discard x poll ∨ a = .release x := by
    by_contra h
    exact ha (by simpa only [not_or] using h)
  rcases ha with rfl | rfl | rfl
  all_goals
    cases hm
    simp [buried, setCtx, Ctx.cleared]

/-- Every id in use, and every id remembered, was issued to one of the first
`k` threads. -/
structure Numbered (k : Nat) (s : St) : Prop where
  inv : Inv s
  ids : ∀ x, Issued k (s.ctx x).id
  past : ∀ t x n, s.remembers t x n → Issued k n

theorem numbered_micro {a : Act} (h : Numbered k u) (hM : May s e a) (hm : Micro D a u s') :
    Numbered k s' := by
  have hv := inv_micro h.inv hm
  refine ⟨hv, fun x => ?_, fun t x n hr => ?_⟩
  · rcases id_micro hm (x := x) (by intro heq; subst heq; exact hM) with hid | hid
    · exact hid ▸ h.ids x
    · exact .inl hid
  · rcases remembers_micro hv hM hm hr with hu | ⟨-, -, -, hid⟩
    · exact h.past t x n hu
    · exact hid ▸ h.ids x

theorem numbered_step (h : Numbered k s) (hk : s.coId = (k : Int).bmod (2 ^ 32))
    (hs : s.step D e = some s') :
    Numbered (if e.spawns then k + 1 else k) s' ∧
      s'.coId = ((if e.spawns then k + 1 else k : Nat) : Int).bmod (2 ^ 32) := by
  constructor
  swap
  · rw [coId_step h.inv hs, hk]
    split
    · rw [Int.bmod_add_bmod, Int.natCast_succ]
    · rfl
  obtain ⟨s1, hb, hch⟩ := step_micro h.inv.base hs
  refine hch.inv (fun _ _ _ hM hm hu => numbered_micro hu hM hm) ?_
  have h1 := inv_begin h.inv hb
  cases hb with
  | same hc =>
    rw [if_neg (fun he => spawns_iff.1 he hc)]
    exact h
  | @create c _ hc hm =>
    rw [if_pos (spawns_iff.2 (by rw [hc]; simp))]
    obtain ⟨hpc, -, -, huc, hid⟩ := create_frame hm
    have hother : ∀ x, x ≠ c → s1.ctx x = s.ctx x := fun x hx =>
      (micro_sameFor hm (by simpa [Act.subject] using hx.symm)).ctx
    refine ⟨h1, fun x => ?_, fun t x n hr => ?_⟩
    · by_cases hx : x = c
      · subst hx
        exact .inr ⟨k, Nat.lt_succ_self k, hid.trans hk⟩
      · rw [hother x hx]
        exact (h.ids x).mono (Nat.le_succ k)
    · refine (h.past t x n ?_).mono (Nat.le_succ k)
      rcases hr with ⟨hf, ht⟩ | ⟨k', hk', ht⟩
      · have htc : t ≠ c := by
          intro heq
          subst heq
          rw [huc] at ht
          cases ht
        rw [hother t htc] at hf ht
        exact .inl ⟨hf, ht⟩
      · exact .inr ⟨k', hpc ▸ hk', ht⟩

theorem fresh_of_numbered (h : Numbered k s) (hk : s.coId = (k : Int).bmod (2 ^ 32))
    (hlt : k < 2 ^ 32 - 1) : FreshId s e := by
  obtain ⟨hni, hne⟩ := not_issued hlt
  rw [← hk] at hni hne
  exact fun c _ => ⟨hne, fun d _ _ hid => hni (hid ▸ h.ids d), fun t hr => hni (h.past t c _ hr)⟩

/-- The first 2 ^ 32 - 1 threads all get a fresh id. -/
theorem fresh_of_few : ∀ {es : List Event} {s : St} {k : Nat}, Numbered k s →
    s.coId = (k : Int).bmod (2 ^ 32) → k + es.countP Event.spawns < 2 ^ 32 →
    Along (St.step D) FreshId s es
  | [], _, _, _, _, _ => trivial
  | e :: es, s, k, h, hk, hlt => by
    rw [List.countP_cons] at hlt
    refine ⟨?_, fun s' hs => ?_⟩
    · by_cases he : e.spawns
      · rw [if_pos he] at hlt
        exact fresh_of_numbered h hk (by omega)
      · exact fun c hc => absurd (spawns_iff.2 (by rw [hc]; simp)) he
    · obtain ⟨h', hk'⟩ := numbered_step h hk hs
      refine fresh_of_few h' hk' ?_
      by_cases he : e.spawns
      · rw [if_pos he] at hlt ⊢
        omega
      · rw [if_neg he] at hlt ⊢
        omega

theorem numbered_init (objs : Objs) (now : Nat) : Numbered 0 (St.init objs now) :=
  ⟨inv_init objs now, fun _ => .inl rfl, by simp [St.init, St.remembers, Ctx.init, Call.target]⟩

end

end Mnthr

import Mathlib.Data.List.Basic

/-!
# Runs of a partial step function, and finite chains of labelled micro-steps

`exec step s ls` runs a list of labels; a label that is not enabled (a failed
assertion, an undefined operation) ends the run with `none`. `Along C s ls`
says that every step of the run meets `C`, a condition on the state before
the step and the label. `exec_inv` is the invariant rule, `exec_inv_iff` the
one for an exact condition, `exec_split` finds
the first step of a run that destroys a property. `recorded` adds a history
variable to a machine. `Projects` relates two machines, a step of the one being
a run of the other; `follows_sim` is the rule for a relation in its place.

`Steps R P s t` is a finite chain of micro-steps of `R` whose labels all
satisfy `P`; one step of a machine is shown to be such a chain, and an
invariant of the micro-steps is then an invariant of the machine
(`Steps.inv`).
-/
namespace Mnthr

section Exec
variable {S L : Type} (step : S → L → Option S)

def exec : S → List L → Option S
  | s, [] => some s
  | s, l :: ls => (step s l).bind fun s' => exec s' ls

/-- Every step of the run of `ls` from `s` meets `C`. -/
def Along (C : S → L → Prop) : S → List L → Prop
  | _, [] => True
  | s, l :: ls => C s l ∧ ∀ s', step s l = some s' → Along C s' ls

variable {step}

theorem exec_cons {s s' : S} {l : L} {ls : List L} (h : exec step s (l :: ls) = some s') :
    ∃ u, step s l = some u ∧ exec step u ls = some s' := by
  simpa only [exec, Option.bind_eq_some_iff] using h

theorem exec_append {s s' : S} {as bs : List L} (h : exec step s (as ++ bs) = some s') :
    ∃ u, exec step s as = some u ∧ exec step u bs = some s' := by
  induction as generalizing s with
  | nil => exact ⟨s, rfl, h⟩
  | cons a as ih =>
    obtain ⟨v, hv, hr⟩ := exec_cons h
    obtain ⟨u, hu, hb⟩ := ih hr
    exact ⟨u, by simp only [exec, hv, Option.bind_some, hu], hb⟩

theorem exec_trans {s u s' : S} {as bs : List L} (ha : exec step s as = some u)
    (hb : exec step u bs = some s') : exec step s (as ++ bs) = some s' := by
  induction as generalizing s with
  | nil => simp only [exec, Option.some.injEq] at ha; subst ha; exact hb
  | cons a as ih =>
    obtain ⟨v, hv, hr⟩ := exec_cons ha
    simp only [List.cons_append, exec, hv, Option.bind_some]
    exact ih hr

/-- Invariant rule: a property kept by every step that meets `C` holds at the
end of every run that meets `C` throughout. -/
theorem exec_inv {I : S → Prop} {C : S → L → Prop}
    (hstep : ∀ s l s', I s → C s l → step s l = some s' → I s') :
    ∀ {ls : List L} {s s' : S}, I s → Along step C s ls → exec step s ls = some s' → I s'
  | [], s, s', hI, _, h => by simp only [exec, Option.some.injEq] at h; exact h ▸ hI
  | l :: ls, s, s', hI, hC, h => by
    obtain ⟨u, hu, hr⟩ := exec_cons h
    exact exec_inv hstep (hstep s l u hI hC.1 hu) (hC.2 u hu) hr

/-- Where a step keeps `I` exactly when it meets `C`, the states of a run all
satisfy `I` exactly when all its steps meet `C`. `J` is an invariant and `B` a
condition that the run is known to meet. -/
theorem exec_inv_iff {I J : S → Prop} {B C : S → L → Prop}
    (hJ : ∀ s l s', J s → step s l = some s' → J s')
    (hstep : ∀ s l s', J s → B s l → I s → step s l = some s' → (I s' ↔ C s l)) :
    ∀ {ls : List L} {s s' : S}, J s → I s → Along step B s ls → exec step s ls = some s' →
      ((∀ pre post u, ls = pre ++ post → exec step s pre = some u → I u) ↔ Along step C s ls)
  | [], s, s', _, hI, _, _ => by
    refine ⟨fun _ => trivial, fun _ pre post u hp hu => ?_⟩
    obtain ⟨rfl, -⟩ := List.nil_eq_append_iff.1 hp
    cases hu
    exact hI
  | l :: ls, s, s', hJs, hI, hB, h => by
    obtain ⟨v, hv, hr⟩ := exec_cons h
    have hiff := hstep s l v hJs hB.1 hI hv
    have hJv := hJ s l v hJs hv
    have hBv := hB.2 v hv
    constructor
    · intro hall
      have hIv := hall [l] ls v rfl (by simp only [exec, hv, Option.bind_some])
      refine ⟨hiff.1 hIv, fun s1 hs1 => ?_⟩
      cases hv.symm.trans hs1
      refine (exec_inv_iff hJ hstep hJv hIv hBv hr).1 fun pre post u hp hu =>
        hall (l :: pre) post u ?_ ?_
      · rw [hp]; rfl
      · simp only [exec, hv, Option.bind_some, hu]
    · intro hC pre post u hp hu
      cases pre with
      | nil => cases hu; exact hI
      | cons a pre =>
        obtain ⟨rfl, rfl⟩ := List.cons.inj hp
        obtain ⟨w, hw, hu⟩ := exec_cons hu
        cases hv.symm.trans hw
        exact (exec_inv_iff hJ hstep hJv (hiff.2 hC.1) hBv hr).2 (hC.2 v hv) pre post u rfl hu

theorem along_mono {C D : S → L → Prop} (h : ∀ s l, C s l → D s l) :
    ∀ {ls : List L} {s : S}, Along step C s ls → Along step D s ls
  | [], _, _ => trivial
  | _ :: _, _, hC => ⟨h _ _ hC.1, fun s' hs => along_mono h (hC.2 s' hs)⟩

theorem along_and {C D : S → L → Prop} : ∀ {ls : List L} {s : S}, Along step C s ls →
    Along step D s ls → Along step (fun s l => C s l ∧ D s l) s ls
  | [], _, _, _ => trivial
  | _ :: _, _, hC, hD => ⟨⟨hC.1, hD.1⟩, fun s' hs => along_and (hC.2 s' hs) (hD.2 s' hs)⟩

/-- What an invariant and a condition imply at a step holds along the run. -/
theorem along_of_inv {I : S → Prop} {C D : S → L → Prop}
    (hstep : ∀ s l s', I s → C s l → step s l = some s' → I s') (h : ∀ s l, I s → C s l → D s l) :
    ∀ {ls : List L} {s : S}, I s → Along step C s ls → Along step D s ls
  | [], _, _, _ => trivial
  | l :: _, s, hI, hC => ⟨h s l hI hC.1, fun s' hs =>
      along_of_inv hstep h (hstep s l s' hI hC.1 hs) (hC.2 s' hs)⟩

/-- Conditions that say the same in the states of an invariant. -/
theorem along_congr {I : S → Prop} {C D : S → L → Prop}
    (hstep : ∀ s l s', I s → step s l = some s' → I s') (h : ∀ s l, I s → (C s l ↔ D s l)) :
    ∀ {ls : List L} {s : S}, I s → (Along step C s ls ↔ Along step D s ls)
  | [], _, _ => Iff.rfl
  | l :: _, s, hI => and_congr (h s l hI)
      (forall_congr' fun s' => imp_congr_right fun hs =>
        along_congr hstep h (hstep s l s' hI hs))

theorem along_append {C : S → L → Prop} {as bs : List L} {s u : S}
    (h : Along step C s (as ++ bs)) (ha : exec step s as = some u) : Along step C u bs := by
  induction as generalizing s with
  | nil => simp only [exec, Option.some.injEq] at ha; exact ha ▸ h
  | cons a as ih =>
    obtain ⟨v, hv, hr⟩ := exec_cons ha
    exact ih (h.2 v hv) hr

theorem along_left {C : S → L → Prop} : ∀ {as bs : List L} {s : S},
    Along step C s (as ++ bs) → Along step C s as
  | [], _, _, _ => trivial
  | _ :: _, _, _, h => ⟨h.1, fun s' hs => along_left (h.2 s' hs)⟩

/-- A condition on labels alone holds along a run iff it holds of every label
of the list; one direction is enough to use it. -/
theorem along_of_forall {C : L → Prop} : ∀ {ls : List L} {s : S}, (∀ l ∈ ls, C l) →
    Along step (fun _ l => C l) s ls
  | [], _, _ => trivial
  | l :: _, _, h => ⟨h l (List.mem_cons_self ..),
      fun _ _ => along_of_forall fun l' hl' => h l' (List.mem_cons_of_mem _ hl')⟩

variable (step) in
/-- Evaluate a Boolean test before every step of a run. -/
def checkAlong (p : S → L → Bool) : S → List L → Bool
  | _, [] => true
  | s, l :: ls => p s l && ((step s l).map fun s' => checkAlong p s' ls).getD true

/-- A run that passes the test meets any condition that the test implies in
the states of an invariant. -/
theorem along_of_check {I : S → Prop} {p : S → L → Bool} {C : S → L → Prop}
    (hstep : ∀ s l s', I s → step s l = some s' → I s') (hp : ∀ s l, I s → p s l → C s l) :
    ∀ {ls : List L} {s : S}, I s → checkAlong step p s ls → Along step C s ls
  | [], _, _, _ => trivial
  | l :: ls, s, hI, h => by
    simp only [checkAlong, Bool.and_eq_true] at h
    refine ⟨hp s l hI h.1, fun s' hs => along_of_check hstep hp (hstep s l s' hI hs) ?_⟩
    simpa only [hs, Option.map_some, Option.getD_some] using h.2

theorem along_of_decide {C : S → L → Prop} [∀ s l, Decidable (C s l)] {ls : List L} {s : S}
    (h : checkAlong step (fun s l => decide (C s l)) s ls) : Along step C s ls :=
  along_of_check (I := fun _ => True) (fun _ _ _ _ _ => trivial)
    (fun _ _ _ hc => of_decide_eq_true hc) trivial h

/-- Forward simulation: a run is matched label by label, and conditions that say
the same in related states hold along both or neither. -/
theorem along_sim {T : Type} {step' : T → L → Option T} {R : S → T → Prop} {C : S → L → Prop}
    {D : T → L → Prop}
    (hstep : ∀ s t l s', R s t → step s l = some s' → ∃ t', step' t l = some t' ∧ R s' t')
    (h : ∀ s t l s', R s t → step s l = some s' → (C s l ↔ D t l)) :
    ∀ {ls : List L} {s s' : S} {t : T}, R s t → exec step s ls = some s' →
      (Along step C s ls ↔ Along step' D t ls) ∧ ∃ t', exec step' t ls = some t' ∧ R s' t'
  | [], _, _, t, hR, hs => by
    cases hs
    exact ⟨Iff.rfl, t, rfl, hR⟩
  | l :: ls, s, s', t, hR, hs => by
    obtain ⟨u, hu, hr⟩ := exec_cons hs
    obtain ⟨v, hv, hRv⟩ := hstep s t l u hR hu
    obtain ⟨hiff, t', ht', hR'⟩ := along_sim hstep h hRv hr
    refine ⟨and_congr (h s t l u hR hu) ⟨fun hC w hw => ?_, fun hD w hw => ?_⟩, t', ?_, hR'⟩
    · cases hv.symm.trans hw
      exact hiff.1 (hC u hu)
    · cases hu.symm.trans hw
      exact hiff.2 (hD v hv)
    · simp only [exec, hv, Option.bind_some, ht']

/-- A run that starts with `Q` and ends without it has a first step that
destroys `Q`. -/
theorem exec_split {Q : S → Prop} : ∀ {ls : List L} {s s' : S}, Q s → ¬ Q s' →
    exec step s ls = some s' →
    ∃ pre l post u v, ls = pre ++ l :: post ∧ exec step s pre = some u ∧
      Along step (fun s _ => Q s) s pre ∧ Q u ∧ step u l = some v ∧ ¬ Q v ∧
      exec step v post = some s'
  | [], s, s', hQ, hn, h => by
    simp only [exec, Option.some.injEq] at h; exact absurd (h ▸ hQ) hn
  | l :: ls, s, s', hQ, hn, h => by
    obtain ⟨u, hu, hr⟩ := exec_cons h
    by_cases hQu : Q u
    · obtain ⟨pre, l', post, a, b, rfl, h1, h2, h3, h4, h5, h6⟩ := exec_split hQu hn hr
      refine ⟨l :: pre, l', post, a, b, rfl, by simp only [exec, hu, Option.bind_some, h1],
        ⟨hQ, fun v hv => ?_⟩, h3, h4, h5, h6⟩
      cases hu.symm.trans hv
      exact h2
    · exact ⟨[], l, ls, s, u, rfl, rfl, trivial, hQ, hu, hQu, hr⟩

end Exec

/-! ## History variables -/

section Ghost
variable {S L G : Type} (step : S → L → Option S) (record : S → L → S → G → G)

/-- The machine with a history variable beside its state: `record s l s' g` is
the history after the step from `s` to `s'`. -/
def recorded (p : S × G) (l : L) : Option (S × G) :=
  (step p.1 l).map fun s' => (s', record p.1 l s' p.2)

variable {step record}

theorem recorded_step {p p' : S × G} {l : L} (h : recorded step record p l = some p') :
    step p.1 l = some p'.1 ∧ p'.2 = record p.1 l p'.1 p.2 := by
  obtain ⟨s', hs, rfl⟩ := Option.map_eq_some_iff.1 h
  exact ⟨hs, rfl⟩

/-- A history does not restrict the machine: its runs are those of the machine. -/
theorem exec_recorded {ls : List L} {p p' : S × G}
    (h : exec (recorded step record) p ls = some p') : exec step p.1 ls = some p'.1 := by
  induction ls generalizing p with
  | nil => cases h; rfl
  | cons l ls ih =>
    obtain ⟨u, hu, hr⟩ := exec_cons h
    simp only [exec, (recorded_step hu).1, Option.bind_some]
    exact ih hr

/-- Every run of the machine has a history. -/
theorem recorded_exec {ls : List L} {s s' : S} (g : G) (h : exec step s ls = some s') :
    ∃ g', exec (recorded step record) (s, g) ls = some (s', g') := by
  induction ls generalizing s g with
  | nil => cases h; exact ⟨g, rfl⟩
  | cons l ls ih =>
    obtain ⟨u, hu, hr⟩ := exec_cons h
    obtain ⟨g', hg⟩ := ih (record s l u g) hr
    exact ⟨g', by simpa only [exec, recorded, hu, Option.map_some, Option.bind_some] using hg⟩

/-- A condition on the machine's states is one on the states with their history. -/
theorem along_recorded {C : S → L → Prop} {ls : List L} {p : S × G} :
    Along step C p.1 ls ↔ Along (recorded step record) (fun p l => C p.1 l) p ls := by
  induction ls generalizing p with
  | nil => exact Iff.rfl
  | cons l ls ih =>
    refine and_congr Iff.rfl ⟨fun h p' hp => ih.1 (h p'.1 (recorded_step hp).1), fun h s' hs => ?_⟩
    exact ih.2 (h (s', record p.1 l s' p.2) (by simp only [recorded, hs, Option.map_some]))

end Ghost

/-! ## Two levels -/

section Levels
variable {S T L K : Type} (step : S → L → Option S) (step' : T → K → Option T) (proj : S → T)
  (parts : S → L → List K)

/-- Every step of `step` is, seen through `proj`, the run `parts` of `step'`. -/
def Projects : Prop :=
  ∀ s l s', step s l = some s' → exec step' (proj s) (parts s l) = some (proj s')

/-- The run of `step'` that a run of `step` is. -/
def flatten : S → List L → List K
  | _, [] => []
  | s, l :: ls => parts s l ++ ((step s l).map fun s' => flatten s' ls).getD []

variable {step step' proj parts}

theorem flatten_cons {s u : S} {l : L} (ls : List L) (h : step s l = some u) :
    flatten step parts s (l :: ls) = parts s l ++ flatten step parts u ls := by
  simp only [flatten, h, Option.map_some, Option.getD_some]

theorem along_trans {C : T → K → Prop} {as bs : List K} {s u : T} (h : exec step' s as = some u)
    (ha : Along step' C s as) (hb : Along step' C u bs) : Along step' C s (as ++ bs) := by
  induction as generalizing s with
  | nil => cases h; exact hb
  | cons a as ih =>
    obtain ⟨v, hv, hr⟩ := exec_cons h
    refine ⟨ha.1, fun w hw => ?_⟩
    cases hv.symm.trans hw
    exact ih hr (ha.2 v hv)

namespace Projects

/-- A run above is a run below, and a condition on its parts is one on the run. -/
theorem run (hp : Projects step step' proj parts) {C : T → K → Prop} {ls : List L} {s s' : S}
    (h : exec step s ls = some s') :
    exec step' (proj s) (flatten step parts s ls) = some (proj s') ∧
      (Along step (fun s l => Along step' C (proj s) (parts s l)) s ls →
        Along step' C (proj s) (flatten step parts s ls)) := by
  induction ls generalizing s with
  | nil => cases h; exact ⟨rfl, fun _ => trivial⟩
  | cons l ls ih =>
    obtain ⟨u, hu, hr⟩ := exec_cons h
    obtain ⟨h1, h2⟩ := ih hr
    rw [flatten_cons ls hu]
    exact ⟨exec_trans (hp s l u hu) h1, fun hc => along_trans (hp s l u hu) hc.1 (h2 (hc.2 u hu))⟩

/-- Invariant rule: what every step below keeps, a step above keeps. -/
theorem inv (hp : Projects step step' proj parts) {I : T → Prop} {C : T → K → Prop}
    (hstep : ∀ t k t', I t → C t k → step' t k = some t' → I t') {s s' : S} {l : L}
    (h : step s l = some s') (hI : I (proj s)) (hc : Along step' C (proj s) (parts s l)) :
    I (proj s') :=
  exec_inv hstep hI hc (hp s l s' h)

end Projects

variable (step') in
/-- `t'` is reached from `t` by a run that meets `C`. -/
def Follows (C : T → K → Prop) (t t' : T) : Prop :=
  ∃ ks, exec step' t ks = some t' ∧ Along step' C t ks

section
variable {C : T → K → Prop} {t u t' : T}

theorem Follows.refl (t : T) : Follows step' C t t := ⟨[], rfl, trivial⟩

theorem Follows.trans (h : Follows step' C t u) (h' : Follows step' C u t') :
    Follows step' C t t' := by
  obtain ⟨as, h1, h2⟩ := h
  obtain ⟨bs, h3, h4⟩ := h'
  exact ⟨as ++ bs, exec_trans h1 h3, along_trans h1 h2 h4⟩

theorem Follows.one {k : K} (hC : C t k) (h : step' t k = some t') : Follows step' C t t' :=
  ⟨[k], by simp only [exec, h, Option.bind_some], hC, fun _ _ => trivial⟩

/-- Forward simulation: each step above is matched by a run below, possibly of
no step. -/
theorem follows_sim {R : S → T → Prop} {B : S → L → Prop}
    (hstep : ∀ s t l s', R s t → B s l → step s l = some s' →
      ∃ t', Follows step' C t t' ∧ R s' t') :
    ∀ {ls : List L} {s s' : S} {t : T}, R s t → Along step B s ls → exec step s ls = some s' →
      ∃ t', Follows step' C t t' ∧ R s' t'
  | [], _, _, t, hR, _, hs => by
    cases hs
    exact ⟨t, .refl t, hR⟩
  | l :: ls, s, s', t, hR, hB, hs => by
    obtain ⟨u, hu, hr⟩ := exec_cons hs
    obtain ⟨v, hv, hRv⟩ := hstep s t l u hR hB.1 hu
    obtain ⟨t', ht', hR'⟩ := follows_sim hstep hRv (hB.2 u hu) hr
    exact ⟨t', hv.trans ht', hR'⟩

end
end Levels

/-! ## Chains of micro-steps -/

section Steps
variable {A S : Type}

inductive Steps (R : A → S → S → Prop) (P : A → Prop) : S → S → Prop where
  | refl (s : S) : Steps R P s s
  | head {a : A} {s u t : S} : P a → R a s u → Steps R P u t → Steps R P s t

variable {R : A → S → S → Prop} {P Q : A → Prop} {s t u : S}

theorem Steps.one {a : A} (hp : P a) (h : R a s t) : Steps R P s t := .head hp h (.refl t)

theorem Steps.trans (h1 : Steps R P s t) (h2 : Steps R P t u) : Steps R P s u := by
  induction h1 with
  | refl => exact h2
  | head hp hr _ ih => exact .head hp hr (ih h2)

theorem Steps.snoc {a : A} (h1 : Steps R P s t) (hp : P a) (h : R a t u) : Steps R P s u :=
  h1.trans (.one hp h)

theorem Steps.mono (hpq : ∀ a, P a → Q a) (h : Steps R P s t) : Steps R Q s t := by
  induction h with
  | refl => exact .refl _
  | head hp hr _ ih => exact .head (hpq _ hp) hr ih

/-- Invariant rule for chains. -/
theorem Steps.inv {I : S → Prop} (hstep : ∀ a s t, P a → R a s t → I s → I t)
    (h : Steps R P s t) (hI : I s) : I t := by
  induction h with
  | refl => exact hI
  | head hp hr _ ih => exact ih (hstep _ _ _ hp hr hI)

end Steps

end Mnthr

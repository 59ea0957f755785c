import Mathlib.Data.List.Nodup
import Mnthr.L2Sched.EvStat
import Mnthr.L2Sched.Machine

/-!
# Stat waits over libev

`stat_waits_release_iff`: a stat wait gives its item back exactly when it finds
`co.rc` of its thread 0. With another code, as after an interrupt, it returns
before it does (src/ev_poller.c:365-367), and every other thread is refused from
then on (`stat_wait_keeps_item`).

`stat_handles_independent_iff`: a handle stays good exactly as long as only
handles that have their item for themselves are destroyed. Two handles of one
path share an item, and the first one destroyed frees it (`stat_item_freed`).
-/
namespace Mnthr
open StatSt

section
variable {D : Diag} {B : BytesFns} {s s' s1 u : StatSt} {e : StatEvent} {a b w h : Nat} {t c : Ptr}
  {path : List UInt8} {x : StatItem}

/-! ## The table -/

theorem statMatches_iff {p q : List UInt8} : statMatches B p q = true ↔ p = q := by
  unfold statMatches statItemCmp
  constructor
  · intro hm
    simp only [Bool.and_eq_true, beq_iff_eq] at hm
    obtain ⟨hh, hc⟩ := hm
    simp only [hh, ne_eq, not_true_eq_false, if_false] at hc
    exact (B.cmp_eq_zero p q).1 hc
  · intro hpq
    subst hpq
    simp [B.cmp_eq_zero p p]

/-- One item for a path. -/
structure StatTable (item : Nat → StatItem) (table : List Nat) (brk : Nat) : Prop where
  nodup : table.Nodup
  bound : ∀ a ∈ table, a < brk
  unique : ∀ a ∈ table, ∀ b ∈ table, (item a).path = (item b).path → a = b

/-- A thread in a wait: `pdata.ev` is the item of its handle. -/
structure StatWait (s : StatSt) (t : Ptr) (h : Nat) (a : Nat) : Prop where
  live : s.live t = true
  bound : h < s.nhandles
  pdata : s.pdata t = .stat a
  handle : ∀ b, s.handle h = some b → b = a

structure StatInv (s : StatSt) : Prop extends StatTable s.item s.table s.brk where
  fresh : ∀ h, s.nhandles ≤ h → s.handle h = none
  waits : ∀ t h, s.frame t = some h → ∃ a, StatWait s t h a

theorem stat_init : StatInv .init := by
  refine ⟨⟨?_, ?_, ?_⟩, ?_, ?_⟩ <;> simp [StatSt.init]

theorem getItem_mem (hg : s.getItem B path = some a) : a ∈ s.table ∧ (s.item a).path = path :=
  ⟨List.mem_of_find?_eq_some hg,
    statMatches_iff.1 (List.find?_some (p := fun a => statMatches B (s.item a).path path) hg)⟩

theorem getItem_none (hg : s.getItem B path = none) (ha : a ∈ s.table) : (s.item a).path ≠ path :=
  fun hp => List.find?_eq_none.1 hg a ha (statMatches_iff.2 hp)

/-- A lookup finds the item that is there. -/
theorem StatTable.getItem (hT : StatTable s.item s.table s.brk) (ha : a ∈ s.table) :
    s.getItem B (s.item a).path = some a := by
  cases hg : s.getItem B (s.item a).path with
  | none => exact absurd rfl (getItem_none hg ha)
  | some b =>
    obtain ⟨hb, hp⟩ := getItem_mem hg
    rw [hT.unique b hb a ha hp]

theorem handleItem_some (hh : s.handleItem h = some a) : s.handle h = some a ∧ a ∈ s.table := by
  obtain ⟨b, hb, hi⟩ := Option.bind_eq_some_iff.1 hh
  split at hi
  · cases hi
    exact ⟨hb, ‹_›⟩
  · cases hi

/-- An item, old or new, is the one of its path. -/
theorem statItemGet_cases (B : BytesFns) (s : StatSt) (path : List UInt8) :
    (∃ a ∈ s.table, s.statItemGet B path = (a, s)) ∨
    ((∀ a ∈ s.table, (s.item a).path ≠ path) ∧ s.statItemGet B path =
      (s.brk, { s.setItem s.brk ⟨path, false, none⟩ with
        table := s.table ++ [s.brk], brk := s.brk + 1 })) := by
  unfold statItemGet
  cases hg : s.getItem B path with
  | some a => exact .inl ⟨a, (getItem_mem hg).1, rfl⟩
  | none => exact .inr ⟨fun a ha => getItem_none hg ha, rfl⟩

/-- The item of the handle is deleted, and with it what other handles point to. -/
theorem statDestroy_some (hT : StatTable s.item s.table s.brk) (hs : s.statDestroy B h = some s') :
    ∃ a ∈ s.table, s.handle h = some a ∧
      s' = { s.setHandle h none with table := s.table.erase a } := by
  obtain ⟨a, ha, hs⟩ := Option.bind_eq_some_iff.1 hs
  obtain ⟨hh, hm⟩ := handleItem_some ha
  obtain ⟨hit, hg, rfl⟩ := Option.map_eq_some_iff.1 hs
  cases (hT.getItem hm).symm.trans hg
  exact ⟨a, hm, hh, rfl⟩

/-! ## What steps leave alone -/

/-- The items and the handles, with the paths of the items. -/
structure SameItems (s s' : StatSt) : Prop where
  table : s'.table = s.table
  brk : s'.brk = s.brk
  handle : s'.handle = s.handle
  nhandles : s'.nhandles = s.nhandles
  path : ∀ a, (s'.item a).path = (s.item a).path

theorem SameItems.refl (s : StatSt) : SameItems s s := ⟨rfl, rfl, rfl, rfl, fun _ => rfl⟩

theorem SameItems.trans (h1 : SameItems s s1) (h2 : SameItems s1 s') : SameItems s s' :=
  ⟨h2.table.trans h1.table, h2.brk.trans h1.brk, h2.handle.trans h1.handle,
    h2.nhandles.trans h1.nhandles, fun a => (h2.path a).trans (h1.path a)⟩

theorem SameItems.setItem (hx : x.path = (s.item a).path) : SameItems s (s.setItem a x) := by
  refine ⟨rfl, rfl, rfl, rfl, fun b => ?_⟩
  change (Function.update s.item a x b).path = (s.item b).path
  by_cases hb : b = a
  · rw [hb, Function.update_self, hx]
  · rw [Function.update_of_ne hb]

theorem SameItems.stop (s : StatSt) (a : Nat) : SameItems s (s.statStop a) := .setItem rfl

theorem SameItems.tableInv (h : SameItems s s') (hT : StatTable s.item s.table s.brk) :
    StatTable s'.item s'.table s'.brk := by
  rw [h.table, h.brk]
  refine ⟨hT.nodup, hT.bound, fun a ha b hb hp => hT.unique a ha b hb ?_⟩
  rwa [h.path a, h.path b] at hp

/-- Only the thread `t` waits, or points to, something else. -/
structure OnlyThread (t : Ptr) (s s' : StatSt) : Prop where
  frame : ∀ u, u ≠ t → s'.frame u = s.frame u
  pdata : ∀ u, u ≠ t → s'.pdata u = s.pdata u
  live : s'.live = s.live

theorem OnlyThread.trans (h1 : OnlyThread t s s1) (h2 : OnlyThread t s1 s') : OnlyThread t s s' :=
  ⟨fun u hu => (h2.frame u hu).trans (h1.frame u hu),
    fun u hu => (h2.pdata u hu).trans (h1.pdata u hu), h2.live.trans h1.live⟩

/-- Threads that wait go on as they did. -/
structure SameWaits (s s' : StatSt) : Prop where
  frame : ∀ t h, s'.frame t = some h → s.frame t = some h ∧ s'.pdata t = s.pdata t
  live : ∀ t, s.live t = true → s.frame t ≠ none → s'.live t = true
  nhandles : s.nhandles ≤ s'.nhandles
  handle : ∀ h b, h < s.nhandles → s'.handle h = some b → s.handle h = some b

theorem SameItems.sameWaits (h : SameItems s s') (ho : OnlyThread t s s') (hf : s'.frame t = none) :
    SameWaits s s' := by
  refine ⟨fun v k hv => ?_, fun v hl _ => ?_, ?_, fun k b _ hk => ?_⟩
  · have hvt : v ≠ t := fun hvt => by rw [hvt, hf] at hv; cases hv
    rw [ho.frame v hvt] at hv
    exact ⟨hv, ho.pdata v hvt⟩
  · rw [ho.live]
    exact hl
  · rw [h.nhandles]
  · rwa [h.handle] at hk

theorem SameItems.sameWaits_of_eq (h : SameItems s s') (hf : s'.frame = s.frame)
    (hp : s'.pdata = s.pdata) (hl : s'.live = s.live) : SameWaits s s' := by
  refine ⟨fun v k hv => ?_, fun v hv _ => ?_, ?_, fun k b _ hk => ?_⟩
  · rw [hf] at hv
    exact ⟨hv, by rw [hp]⟩
  · rw [hl]
    exact hv
  · rw [h.nhandles]
  · rwa [h.handle] at hk

theorem SameWaits.waits (h : SameWaits s s')
    (hw : ∀ t h, s.frame t = some h → ∃ a, StatWait s t h a) :
    ∀ t h, s'.frame t = some h → ∃ a, StatWait s' t h a := by
  intro t k hf
  obtain ⟨hf, hp⟩ := h.frame t k hf
  obtain ⟨a, hl, hk, hpd, hh⟩ := hw t k hf
  exact ⟨a, h.live t hl (by rw [hf]; exact Option.some_ne_none k), hk.trans_le h.nhandles,
    hp.trans hpd, fun b hb => hh b (h.handle k b hk hb)⟩

/-! ## Waits -/

theorem setFrame_self (s : StatSt) (t : Ptr) (o : Option Nat) : (s.setFrame t o).frame t = o :=
  Function.update_self ..

theorem OnlyThread.setFrame (s : StatSt) (t : Ptr) (o : Option Nat) (r : Option (Ptr × Int)) :
    OnlyThread t s { s.setFrame t o with ret := r } :=
  ⟨fun _ hu => Function.update_of_ne hu .., fun _ _ => rfl, rfl⟩

theorem OnlyThread.setPdata (s : StatSt) (t : Ptr) (p : Pdata) : OnlyThread t s (s.setPdata t p) :=
  ⟨fun _ _ => rfl, fun _ hu => Function.update_of_ne hu .., rfl⟩

theorem OnlyThread.setItem (s : StatSt) (t : Ptr) (a : Nat) (x : StatItem) :
    OnlyThread t s (s.setItem a x) := ⟨fun _ _ => rfl, fun _ _ => rfl, rfl⟩

/-- A wait that returns 0 has found its item, with the thread as the owner. -/
theorem waitRelease_some (hT : StatTable s.item s.table s.brk)
    (hs : s.waitRelease B t h = some s') : ∃ a ∈ s.table, s.handle h = some a ∧
      s' = (s.setItem a { s.item a with data := none }).setPdata t .null := by
  obtain ⟨a, ha, hs⟩ := Option.bind_eq_some_iff.1 hs
  obtain ⟨hh, hm⟩ := handleItem_some ha
  obtain ⟨ev, hg, hs⟩ := Option.bind_eq_some_iff.1 hs
  cases (hT.getItem hm).symm.trans hg
  split at hs
  · cases hs
  · cases hs
    exact ⟨a, hm, hh, rfl⟩

/-- The two ways out of a wait. -/
theorem waitEnd_cases (hT : StatTable s.item s.table s.brk) (hs : s.waitEnd B t h = some s') :
    (s.rc t ≠ 0 ∧ s' = { s.setFrame t none with ret := some (t, -1) }) ∨
    (s.rc t = 0 ∧ ∃ a ∈ s.table, s.handle h = some a ∧
      s' = { ((s.setItem a { s.item a with data := none }).setPdata t .null).setFrame t none with
        ret := some (t, 0) }) := by
  unfold waitEnd at hs
  split at hs
  · cases hs
    exact .inl ⟨‹_›, rfl⟩
  · obtain ⟨s1, hr, rfl⟩ := Option.map_eq_some_iff.1 hs
    obtain ⟨a, ha, hh, rfl⟩ := waitRelease_some hT hr
    exact .inr ⟨not_not.1 ‹_›, a, ha, hh, rfl⟩

theorem waitEnd_keeps (hT : StatTable s.item s.table s.brk) (hs : s.waitEnd B t h = some s') :
    SameItems s s' ∧ OnlyThread t s s' ∧ s'.frame t = none := by
  obtain ⟨-, rfl⟩ | ⟨-, a, -, -, rfl⟩ := waitEnd_cases hT hs
  · exact ⟨⟨rfl, rfl, rfl, rfl, fun _ => rfl⟩, .setFrame .., setFrame_self ..⟩
  · have hitem : SameItems s (s.setItem a { s.item a with data := none }) := .setItem rfl
    exact ⟨hitem.trans ⟨rfl, rfl, rfl, rfl, fun _ => rfl⟩,
      (OnlyThread.setItem s t a _).trans ((OnlyThread.setPdata _ t _).trans (.setFrame ..)),
      setFrame_self ..⟩

theorem switchTo_keeps (hT : StatTable s.item s.table s.brk) (hs : s.switchTo B t = some s') :
    SameItems s s' ∧ OnlyThread t s s' ∧ s'.frame t = none := by
  unfold switchTo at hs
  cases hf : s.frame t with
  | none =>
    simp only [hf] at hs
    cases hs
    exact ⟨.refl s, ⟨fun _ _ => rfl, fun _ _ => rfl, rfl⟩, hf⟩
  | some k =>
    simp only [hf] at hs
    exact waitEnd_keeps hT hs

/-- The state in which the callback of a watcher resumes its thread. -/
def StatSt.fired (s : StatSt) (w : Nat) (c : Ptr) : StatSt := (s.setPdata c .null).statStop w

theorem fired_keeps (s : StatSt) (w : Nat) (c : Ptr) :
    SameItems s (s.fired w c) ∧ OnlyThread c s (s.fired w c) := by
  have h : SameItems (s.setPdata c .null) (s.fired w c) := .stop ..
  exact ⟨⟨h.table, h.brk, h.handle, h.nhandles, h.path⟩,
    (OnlyThread.setPdata s c .null).trans (.setItem ..)⟩

theorem statCb_cases (hs : s.statCb B w = some s') :
    ((s.item w).data = none ∧ s' = s.statStop w) ∨
    ∃ c, (s.item w).data = some c ∧ s.pdata c = .stat w ∧
      ((s.live c = false ∧ s' = s.fired w c) ∨
        (s.live c = true ∧ (s.fired w c).switchTo B c = some s')) := by
  unfold statCb at hs
  cases hd : (s.item w).data with
  | none =>
    simp only [hd, Option.some.injEq] at hs
    exact .inl ⟨rfl, hs.symm⟩
  | some c =>
    simp only [hd] at hs
    split at hs
    · cases hs
    · refine .inr ⟨c, rfl, not_not.1 ‹_›, ?_⟩
      split at hs
      · exact .inr ⟨‹_›, hs⟩
      · cases hs
        exact .inl ⟨Bool.eq_false_iff.2 ‹_›, rfl⟩

theorem statCb_keeps (hI : StatInv s) (hs : s.statCb B w = some s') :
    SameItems s s' ∧ SameWaits s s' := by
  obtain ⟨-, rfl⟩ | ⟨c, hd, hp, ⟨hl, rfl⟩ | ⟨hl, hs⟩⟩ := statCb_cases hs
  · have hi := SameItems.stop s w
    exact ⟨hi, hi.sameWaits_of_eq rfl rfl rfl⟩
  · obtain ⟨hi, ho⟩ := fired_keeps s w c
    -- a dead thread does not wait
    have hf : s.frame c = none := by
      cases hf : s.frame c with
      | none => rfl
      | some k =>
        obtain ⟨a, hw⟩ := hI.waits c k hf
        rw [hw.live] at hl
        cases hl
    exact ⟨hi, hi.sameWaits ho hf⟩
  · obtain ⟨hi, ho⟩ := fired_keeps s w c
    obtain ⟨hi', ho', hf⟩ := switchTo_keeps (hi.tableInv hI.toStatTable) hs
    have hall := hi.trans hi'
    exact ⟨hall, hall.sameWaits (ho.trans ho') hf⟩

theorem statInterrupt_keeps (hs : s.setInterrupt D t = some s') :
    SameItems s s' ∧ SameWaits s s' := by
  unfold setInterrupt at hs
  split at hs
  · obtain ⟨s1, hc, rfl⟩ := Option.map_eq_some_iff.1 hs
    have h1 : SameItems s s1 ∧ s1.frame = s.frame ∧ s1.pdata = s.pdata ∧ s1.live = s.live := by
      unfold clearEvent at hc
      split at hc
      · split at hc
        · cases hc
          exact ⟨.stop .., rfl, rfl, rfl⟩
        · cases hc
      · cases hc
        exact ⟨.refl s, rfl, rfl, rfl⟩
    obtain ⟨hi, hf, hp, hl⟩ := h1
    have hi' : SameItems s (s1.setRc t D.CO_RC_USER_INTERRUPTED) :=
      ⟨hi.table, hi.brk, hi.handle, hi.nhandles, hi.path⟩
    exact ⟨hi', hi'.sameWaits_of_eq hf hp hl⟩
  · cases hs
    exact ⟨.refl s, (SameItems.refl s).sameWaits_of_eq rfl rfl rfl⟩

/-- A wait is refused, or starts on the item of its handle. -/
theorem statWait_cases (hs : s.waitBegin D t h = some s') : ∃ a ∈ s.table, s.handle h = some a ∧
    (s' = { (s.setPdata t (.stat a)).setRc t D.CO_RC_SIMULTANEOUS with ret := some (t, -1) } ∨
      s' = ((s.setPdata t (.stat a)).setItem a
        { s.item a with active := true, data := some t }).setFrame t (some h)) := by
  obtain ⟨a, ha, rfl⟩ := Option.map_eq_some_iff.1 hs
  obtain ⟨hh, hm⟩ := handleItem_some ha
  refine ⟨a, hm, hh, ?_⟩
  dsimp only
  split
  · refine .inr ?_
    simp [statStart, setItem, setPdata]
  · rename_i v hv
    have hd : (s.item a).data = some v := hv
    split
    · exact .inl rfl
    · refine .inr ?_
      rename_i hvt
      rw [not_not.1 hvt] at hd
      simp [statStart, setPdata, ← hd]

/-! ## Steps -/

theorem StatInv.keep (hI : StatInv s) (hi : SameItems s s') (hw : SameWaits s s') : StatInv s' := by
  refine ⟨hi.tableInv hI.toStatTable, fun k hk => ?_, hw.waits hI.waits⟩
  rw [hi.nhandles] at hk
  rw [hi.handle]
  exact hI.fresh k hk

/-- A new item has a path and a number of its own. -/
theorem StatTable.store (hT : StatTable s.item s.table s.brk)
    (hno : ∀ a ∈ s.table, (s.item a).path ≠ path) :
    StatTable (Function.update s.item s.brk ⟨path, false, none⟩) (s.table ++ [s.brk])
      (s.brk + 1) := by
  have hnew : s.brk ∉ s.table := fun ha => Nat.lt_irrefl _ (hT.bound _ ha)
  have hold : ∀ a ∈ s.table, Function.update s.item s.brk ⟨path, false, none⟩ a = s.item a :=
    fun a ha => Function.update_of_ne (fun he => hnew (by rw [← he]; exact ha)) ..
  have hself : Function.update s.item s.brk ⟨path, false, none⟩ s.brk = ⟨path, false, none⟩ :=
    Function.update_self ..
  refine ⟨?_, fun a ha => ?_, fun a ha b hb hp => ?_⟩
  · exact List.nodup_append.2 ⟨hT.nodup, List.nodup_singleton _, fun a ha b hb hab =>
      hnew (by rw [← List.mem_singleton.1 hb, ← hab]; exact ha)⟩
  · rcases List.mem_append.1 ha with ha | ha
    · exact Nat.lt_succ_of_lt (hT.bound a ha)
    · rw [List.mem_singleton.1 ha]
      exact Nat.lt_succ_self _
  · rcases List.mem_append.1 ha with ha | ha <;> rcases List.mem_append.1 hb with hb | hb
    · rw [hold a ha, hold b hb] at hp
      exact hT.unique a ha b hb hp
    · rw [hold a ha, List.mem_singleton.1 hb, hself] at hp
      exact absurd hp (hno a ha)
    · rw [hold b hb, List.mem_singleton.1 ha, hself] at hp
      exact absurd hp.symm (hno b hb)
    · rw [List.mem_singleton.1 ha, List.mem_singleton.1 hb]

/-- What a lookup for a new handle leaves: the item `a` is in the table, the
others are where they were. -/
structure Looked (s s1 : StatSt) (a : Nat) : Prop where
  table : StatTable s1.item s1.table s1.brk
  mem : a ∈ s1.table
  old : ∀ b ∈ s.table, b ∈ s1.table ∧ s1.item b = s.item b
  handle : s1.handle = s.handle
  nhandles : s1.nhandles = s.nhandles
  frame : s1.frame = s.frame
  pdata : s1.pdata = s.pdata
  live : s1.live = s.live

theorem statItemGet_looked (B : BytesFns) (path : List UInt8)
    (hT : StatTable s.item s.table s.brk) :
    Looked s (s.statItemGet B path).2 (s.statItemGet B path).1 := by
  rcases statItemGet_cases B s path with ⟨a, ha, hg⟩ | ⟨hno, hg⟩ <;> rw [hg]
  · exact ⟨hT, ha, fun b hb => ⟨hb, rfl⟩, rfl, rfl, rfl, rfl, rfl⟩
  · refine ⟨hT.store hno, List.mem_append_right _ (List.mem_singleton_self _), fun b hb => ⟨?_, ?_⟩,
      rfl, rfl, rfl, rfl, rfl⟩
    · exact List.mem_append_left _ hb
    · exact Function.update_of_ne (Nat.ne_of_lt (hT.bound b hb)) ..

theorem StatInv.new (hI : StatInv s) : StatInv (s.statNew B path) := by
  have hl := statItemGet_looked B path hI.toStatTable
  unfold statNew
  generalize s.statItemGet B path = r at hl
  obtain ⟨a, s1⟩ := r
  have hold (k : Nat) (hk : k ≠ s1.nhandles) :
      Function.update s1.handle s1.nhandles (some a) k = s.handle k := by
    rw [Function.update_of_ne hk, hl.handle]
  refine ⟨hl.table, fun k hk => ?_,
    SameWaits.waits (s := s) ⟨fun t k hf => ?_, fun t hv _ => ?_, ?_, fun k b hk hb => ?_⟩ hI.waits⟩
  · have hk : s.nhandles + 1 ≤ k := hl.nhandles ▸ hk
    exact (hold k (by rw [hl.nhandles]; omega)).trans (hI.fresh k (by omega))
  · exact ⟨hl.frame ▸ hf, congrFun hl.pdata t⟩
  · exact (congrFun hl.live t).trans hv
  · exact hl.nhandles ▸ Nat.le_succ s1.nhandles
  · exact (hold k (by rw [hl.nhandles]; omega)).symm.trans hb

theorem StatInv.destroy (hI : StatInv s) (hs : s.statDestroy B h = some s') : StatInv s' := by
  obtain ⟨a, ha, hh, rfl⟩ := statDestroy_some hI.toStatTable hs
  have hmem : ∀ b ∈ s.table.erase a, b ∈ s.table := fun b hb => List.mem_of_mem_erase hb
  have hsub : ∀ k b, Function.update s.handle h none k = some b → s.handle k = some b := by
    intro k b hb
    by_cases hk : k = h
    · rw [hk, Function.update_self] at hb
      cases hb
    · rwa [Function.update_of_ne hk] at hb
  refine ⟨⟨hI.nodup.erase a, fun b hb => hI.bound b (hmem b hb),
    fun b hb c hc => hI.unique b (hmem b hb) c (hmem c hc)⟩, fun k hk => ?_,
    SameWaits.waits (s := s) ⟨fun _ _ hf => ⟨hf, rfl⟩, fun _ hl _ => hl, Nat.le_refl _,
      fun k b _ hb => hsub k b hb⟩ hI.waits⟩
  cases hb : Function.update s.handle h none k with
  | none => exact hb
  | some b => exact absurd (hsub k b hb) (by rw [hI.fresh k hk]; simp)

/-- Beside `mnthr_stat_new` and `mnthr_stat_destroy`, nothing touches the table. -/
theorem sameItems_step (hI : StatInv s) (hn : ∀ path, e ≠ .new path) (hd : ∀ h, e ≠ .destroy h)
    (hs : statStep D B s e = some s') : SameItems s s' := by
  cases e with
  | new path => exact absurd rfl (hn path)
  | destroy k => exact absurd rfl (hd k)
  | wait v k =>
    simp only [statStep] at hs
    split at hs
    · obtain ⟨a, -, -, rfl | rfl⟩ := statWait_cases hs
      · exact ⟨rfl, rfl, rfl, rfl, fun _ => rfl⟩
      · have hi : SameItems s (s.setItem a { s.item a with active := true, data := some v }) :=
          .setItem rfl
        exact ⟨hi.table, hi.brk, hi.handle, hi.nhandles, hi.path⟩
    · cases hs
  | resume v =>
    obtain ⟨k, -, hs⟩ := Option.bind_eq_some_iff.1 hs
    exact (waitEnd_keeps hI.toStatTable hs).1
  | interrupt v => exact (statInterrupt_keeps hs).1
  | event w =>
    simp only [statStep] at hs
    split at hs
    · exact (statCb_keeps hI hs).1
    · cases hs
  | setRc v n =>
    cases hs
    exact ⟨rfl, rfl, rfl, rfl, fun _ => rfl⟩
  | io v waits | spawn v | exit v =>
    simp only [statStep] at hs
    split at hs <;> cases hs
    exact ⟨rfl, rfl, rfl, rfl, fun _ => rfl⟩

/-- A thread that does not wait starts to, on the item of its handle. -/
theorem StatInv.started (hI : StatInv s) (hl : s.live t = true) (hh : s.handle h = some a)
    (hx : x.path = (s.item a).path) :
    StatInv (((s.setPdata t (.stat a)).setItem a x).setFrame t (some h)) := by
  have hi : SameItems s (s.setItem a x) := .setItem hx
  refine ⟨hi.tableInv hI.toStatTable, hI.fresh, fun v k hf => ?_⟩
  change Function.update s.frame t (some h) v = some k at hf
  by_cases hv : v = t
  · rw [hv, Function.update_self] at hf
    cases hf
    have hk : h < s.nhandles := by
      by_contra hk
      rw [hI.fresh h (Nat.le_of_not_lt hk)] at hh
      cases hh
    exact ⟨a, hv ▸ hl, hk, hv ▸ Function.update_self .., fun b hb =>
      Option.some.inj (hb.symm.trans hh)⟩
  · rw [Function.update_of_ne hv] at hf
    obtain ⟨b, hw⟩ := hI.waits v k hf
    exact ⟨b, hw.live, hw.bound, (Function.update_of_ne hv ..).trans hw.pdata, hw.handle⟩

theorem stat_step (hI : StatInv s) (hs : statStep D B s e = some s') : StatInv s' := by
  have hkeep (hw : SameWaits s s') (hn : ∀ path, e ≠ .new path) (hd : ∀ h, e ≠ .destroy h) :
      StatInv s' := hI.keep (sameItems_step hI hn hd hs) hw
  cases e with
  | new path =>
    cases hs
    exact hI.new
  | destroy k => exact hI.destroy hs
  | wait v k =>
    have hi := sameItems_step hI (by simp) (by simp) hs
    simp only [statStep] at hs
    split at hs
    · rename_i hc
      obtain ⟨a, -, hh, rfl | rfl⟩ := statWait_cases hs
      · have ho := OnlyThread.setPdata s v (.stat a)
        exact hI.keep hi (hi.sameWaits ⟨ho.frame, ho.pdata, ho.live⟩ hc.2)
      · exact hI.started hc.1 hh rfl
    · cases hs
  | resume v =>
    obtain ⟨k, -, hk⟩ := Option.bind_eq_some_iff.1 hs
    obtain ⟨hi, ho, hf⟩ := waitEnd_keeps hI.toStatTable hk
    exact hI.keep hi (hi.sameWaits ho hf)
  | interrupt v => exact hI.keep (statInterrupt_keeps hs).1 (statInterrupt_keeps hs).2
  | event w =>
    simp only [statStep] at hs
    split at hs
    · obtain ⟨hi, hw⟩ := statCb_keeps hI hs
      exact hI.keep hi hw
    · cases hs
  | setRc v n =>
    have hi := sameItems_step hI (by simp) (by simp) hs
    cases hs
    exact hI.keep hi (hi.sameWaits_of_eq rfl rfl rfl)
  | io v waits =>
    have hi := sameItems_step hI (by simp) (by simp) hs
    simp only [statStep] at hs
    split at hs
    · rename_i hc
      cases hs
      exact hI.keep hi (hi.sameWaits (.setPdata s v _) hc.2)
    · cases hs
  | spawn v =>
    simp only [statStep] at hs
    split at hs <;> cases hs
    refine hkeep ⟨fun _ _ hf => ⟨hf, rfl⟩, fun u hu _ => ?_, Nat.le_refl _, fun _ _ _ hb => hb⟩
      (by simp) (by simp)
    by_cases huv : u = v
    · exact huv ▸ Function.update_self ..
    · exact (Function.update_of_ne huv ..).trans hu
  | exit v =>
    simp only [statStep] at hs
    split at hs
    · rename_i hc
      cases hs
      have hne : ∀ u, s.frame u ≠ none → u ≠ v := fun u hu huv => hu (huv ▸ hc.2)
      refine hkeep ⟨fun u k hf => ⟨hf, ?_⟩, fun u hu hf => ?_, Nat.le_refl _, fun _ _ _ hb => hb⟩
        (by simp) (by simp)
      · exact Function.update_of_ne (hne u (by rw [show s.frame u = some k from hf]; simp)) ..
      · exact (Function.update_of_ne (hne u hf) ..).trans hu
    · cases hs

/-! ## Waits release their item -/

/-- The thread whose wait the step ends. -/
def StatSt.returns (s : StatSt) : StatEvent → Option Ptr
  | .resume t => if (s.frame t).isSome then some t else none
  | .event w => (s.item w).data.filter fun c => s.live c && (s.frame c).isSome
  | _ => none

/-- The owner of the item that `pdata.ev` of `t` pointed to, and `pdata.ev` itself
are NULL. -/
structure StatReleased (s s' : StatSt) (t : Ptr) : Prop where
  data : ∀ a, s.pdata t = .stat a → (s'.item a).data = none
  pdata : s'.pdata t = .null

/-- A wait that returns releases its item. -/
def Releases (D : Diag) (B : BytesFns) (s : StatSt) (e : StatEvent) : Prop :=
  ∀ t s', s.returns e = some t → statStep D B s e = some s' → StatReleased s s' t

/-- A thread that is switched back to finds 0 in `co.rc`. -/
def ResumedWithZero (s : StatSt) (e : StatEvent) : Prop := ∀ t, s.returns e = some t → s.rc t = 0

instance (s : StatSt) (e : StatEvent) : Decidable (ResumedWithZero s e) :=
  match h : s.returns e with
  | none => isTrue fun t ht => by rw [h] at ht; cases ht
  | some t => decidable_of_iff (s.rc t = 0)
      ⟨fun h0 u hu => by rw [h] at hu; cases hu; exact h0, fun hall => hall t h⟩

/-- The end of a wait, from the state `s1` in which its thread is switched to:
the item is owned, or `pdata.ev` points to it. -/
theorem stat_released_iff (hI : StatInv s) (hi : SameItems s s1) (hf : s.frame t = some h)
    (hrc : s1.rc = s.rc)
    (hheld : s1.pdata t ≠ .null ∨ ∃ a, s.pdata t = .stat a ∧ (s1.item a).data ≠ none)
    (hs : s1.waitEnd B t h = some s') : StatReleased s s' t ↔ s.rc t = 0 := by
  obtain ⟨a, hw⟩ := hI.waits t h hf
  obtain ⟨h0, rfl⟩ | ⟨h0, b, -, hb, rfl⟩ := waitEnd_cases (hi.tableInv hI.toStatTable) hs
  · rw [hrc] at h0
    refine iff_of_false (fun hr => ?_) h0
    obtain hp | ⟨c, hc, hd⟩ := hheld
    · exact hp hr.pdata
    · exact hd (hr.data c hc)
  · rw [hrc] at h0
    rw [hi.handle] at hb
    refine iff_of_true ⟨fun c hc => ?_, Function.update_self ..⟩ h0
    -- the item found again is the one of the handle
    obtain rfl : c = b := by
      rw [hw.pdata] at hc
      cases hc
      exact (hw.handle b hb).symm
    change (Function.update s1.item c _ c).data = none
    rw [Function.update_self]

theorem releases_step (hI : StatInv s) (hs : statStep D B s e = some s') :
    Releases D B s e ↔ ResumedWithZero s e := by
  have hone (t : Ptr) (ht : s.returns e = some t) (hiff : StatReleased s s' t ↔ s.rc t = 0) :
      Releases D B s e ↔ ResumedWithZero s e := by
    constructor
    · intro hr u hu
      cases ht.symm.trans hu
      exact hiff.1 (hr t s' ht hs)
    · intro h0 u v hu hv
      cases ht.symm.trans hu
      cases hs.symm.trans hv
      exact hiff.2 (h0 t ht)
  cases hr : s.returns e with
  | none =>
    refine iff_of_true (fun t _ ht => ?_) fun t ht => ?_ <;>
    · rw [hr] at ht
      cases ht
  | some t =>
    refine hone t hr ?_
    cases e with
    | resume v =>
      obtain ⟨k, hf, hs⟩ := Option.bind_eq_some_iff.1 hs
      simp only [StatSt.returns, hf, Option.isSome_some, if_true, Option.some.injEq] at hr
      subst hr
      obtain ⟨a, hw⟩ := hI.waits v k hf
      exact stat_released_iff hI (.refl s) hf rfl (.inl (by rw [hw.pdata]; simp)) hs
    | event w =>
      obtain ⟨hd, hc⟩ := Option.filter_eq_some_iff.1 hr
      simp only [Bool.and_eq_true] at hc
      obtain ⟨k, hf⟩ := Option.isSome_iff_exists.1 hc.2
      simp only [statStep] at hs
      split at hs
      swap
      · cases hs
      obtain ⟨hn, -⟩ | ⟨c, hd', hp, ⟨hl, -⟩ | ⟨-, hs⟩⟩ := statCb_cases hs
      · rw [hd] at hn
        cases hn
      · cases hd.symm.trans hd'
        rw [hl] at hc
        cases hc.1
      · cases hd.symm.trans hd'
        have hf' : (s.fired w t).frame t = some k := hf
        simp only [switchTo, hf'] at hs
        refine stat_released_iff hI (fired_keeps s w t).1 hf rfl (.inr ⟨w, hp, ?_⟩) hs
        have hdata : ((s.fired w t).item w).data = (s.item w).data := by
          simp [StatSt.fired, statStop, setItem, setPdata]
        rw [hdata, hd]
        simp
    | new path | destroy k | wait v k | interrupt v | setRc v n | io v b | spawn v | exit v =>
      cases hr

end

/-- In every run: all stat waits that return release their item exactly when all
threads that are switched back to from one find 0 in `co.rc`. -/
theorem stat_waits_release_iff {D : Diag} {B : BytesFns} {es : List StatEvent} {s : StatSt}
    (h : exec (statStep D B) .init es = some s) :
    Along (statStep D B) (Releases D B) .init es ↔
      Along (statStep D B) ResumedWithZero .init es :=
  (along_sim (R := fun s t => s = t ∧ StatInv s)
    (fun _ _ _ s' hR hs => ⟨s', hR.1 ▸ hs, rfl, stat_step hR.2 hs⟩)
    (fun _ _ _ _ hR hs => hR.1 ▸ releases_step hR.2 hs) ⟨rfl, stat_init⟩ h).1

/-- The file changes; then thread 2 waits on it. -/
def twoWatchers : List StatEvent :=
  [.spawn 1, .spawn 2, .new [97], .wait 1 0, .event 0, .wait 2 0]

theorem stat_waits_release_twoWatchers :
    ∃ s, exec (statStep .sample .sample) .init twoWatchers = some s ∧ s.frame 2 = some 0 ∧
      Along (statStep .sample .sample) (Releases .sample .sample) .init twoWatchers := by
  obtain ⟨s, hs⟩ := Option.isSome_iff_exists.1
    (show (exec (statStep .sample .sample) .init twoWatchers).isSome by decide)
  exact ⟨s, hs, fact_of_map hs (f := fun s => s.frame 2) (by decide),
    (stat_waits_release_iff hs).2 (along_of_decide (by decide))⟩

/-- Thread 1 is interrupted: its wait returns, and thread 2 is refused. -/
theorem stat_wait_keeps_item : ∃ s,
    exec (statStep .sample .sample) .init
      [.spawn 1, .spawn 2, .new [97], .wait 1 0, .interrupt 1, .resume 1, .wait 2 0] = some s ∧
    s.frame 1 = none ∧ s.pdata 1 = .stat 0 ∧ (s.item 0).data = some 1 ∧ s.frame 2 = none ∧
    s.rc 2 = Diag.sample.CO_RC_SIMULTANEOUS ∧ s.ret = some (2, -1) ∧
    ¬ Along (statStep .sample .sample) (Releases .sample .sample) .init
      ([.spawn 1, .spawn 2, .new [97], .wait 1 0, .interrupt 1] ++ [.resume 1]) := by
  obtain ⟨s, hs⟩ := Option.isSome_iff_exists.1 (show (exec (statStep .sample .sample) .init
    [.spawn 1, .spawn 2, .new [97], .wait 1 0, .interrupt 1, .resume 1,
      .wait 2 0]).isSome by decide)
  refine ⟨s, hs, fact_of_map hs (f := fun s => s.frame 1) (by decide),
    fact_of_map hs (f := fun s => s.pdata 1) (by decide),
    fact_of_map hs (f := fun s => (s.item 0).data) (by decide),
    fact_of_map hs (f := fun s => s.frame 2) (by decide),
    fact_of_map hs (f := fun s => s.rc 2) (by decide), fact_of_map hs (f := StatSt.ret) (by decide),
    fun h => ?_⟩
  obtain ⟨u, hu⟩ := Option.isSome_iff_exists.1 (show (exec (statStep .sample .sample) .init
    [.spawn 1, .spawn 2, .new [97], .wait 1 0, .interrupt 1]).isSome by decide)
  have hret : u.returns (.resume 1) = some 1 :=
    fact_of_map hu (f := fun u => u.returns (.resume 1)) (by decide)
  obtain ⟨v, hv⟩ : ∃ v, statStep .sample .sample u (.resume 1) = some v :=
    Option.isSome_iff_exists.1
      (fact_of_map hu (f := fun u => (statStep .sample .sample u (.resume 1)).isSome) (by decide))
  have hp : v.pdata 1 = .stat 0 := fact_of_map (exec_trans hu
    (show exec (statStep .sample .sample) u [.resume 1] = some v by
      simp only [exec, hv, Option.bind_some])) (f := fun s => s.pdata 1) (by decide)
  exact absurd (hp.symm.trans ((along_append h hu).1 1 v hret hv).pdata) (by decide)

/-! ## Handles -/

/-- Every handle that exists has its item in the table, and a lookup finds it:
`mnthr_stat_destroy` succeeds, and a wait that returns 0 finds what it began on. -/
structure Independent (B : BytesFns) (s : StatSt) : Prop where
  item : ∀ h a, s.handle h = some a → a ∈ s.table
  found : ∀ h a, s.handle h = some a → s.getItem B (s.item a).path = some a
  destroys : ∀ h a, s.handle h = some a → (s.statDestroy B h).isSome

/-- The handle is destroyed that has its item for itself. -/
def SoleHandle (s : StatSt) : StatEvent → Prop
  | .destroy h => ∀ k, k ≠ h → ∀ a, s.handle h = some a → s.handle k ≠ some a
  | _ => True

section
variable {D : Diag} {B : BytesFns} {s s' : StatSt} {e : StatEvent} {h : Nat} {path : List UInt8}

theorem independent_iff (hI : StatInv s) :
    Independent B s ↔ ∀ h a, s.handle h = some a → a ∈ s.table := by
  refine ⟨fun hi => hi.item, fun hm => ⟨hm, fun h a hh => hI.toStatTable.getItem (hm h a hh),
    fun h a hh => ?_⟩⟩
  have hitem : s.handleItem h = some a := by
    simp only [handleItem, hh, Option.bind_some, hm h a hh, if_true]
  simp only [statDestroy, hitem, Option.bind_some, hI.toStatTable.getItem (hm h a hh),
    Option.map_some, Option.isSome_some]

theorem Independent.new (hI : StatInv s) (hi : Independent B s) :
    Independent B (s.statNew B path) := by
  refine (independent_iff hI.new).2 fun k a hk => ?_
  have hl := statItemGet_looked B path hI.toStatTable
  unfold statNew at hk ⊢
  generalize s.statItemGet B path = r at hk hl
  obtain ⟨b, s1⟩ := r
  change Function.update s1.handle s1.nhandles (some b) k = some a at hk
  by_cases hkn : k = s1.nhandles
  · rw [hkn, Function.update_self] at hk
    cases hk
    exact hl.mem
  · rw [Function.update_of_ne hkn, hl.handle] at hk
    exact (hl.old a (hi.item k a hk)).1

/-- The item that is freed was the item of no other handle. -/
theorem destroy_independent_iff (hI : StatInv s) (hi : Independent B s)
    (hs : s.statDestroy B h = some s') : Independent B s' ↔ SoleHandle s (.destroy h) := by
  rw [independent_iff (hI.destroy hs)]
  obtain ⟨a, ha, hh, rfl⟩ := statDestroy_some hI.toStatTable hs
  constructor
  · intro hall k hk b hb hkb
    cases hh.symm.trans hb
    have hmem := hall k a ((Function.update_of_ne hk ..).trans hkb)
    exact (hI.nodup.mem_erase_iff.1 hmem).1 rfl
  · intro hsole k b hb
    change Function.update s.handle h none k = some b at hb
    by_cases hk : k = h
    · rw [hk, Function.update_self] at hb
      cases hb
    · rw [Function.update_of_ne hk] at hb
      refine hI.nodup.mem_erase_iff.2 ⟨fun hba => ?_, hi.item k b hb⟩
      exact hsole k hk a hh (hba ▸ hb)

theorem independent_step (hI : StatInv s) (hi : Independent B s)
    (hs : statStep D B s e = some s') : Independent B s' ↔ SoleHandle s e := by
  have hother (hn : ∀ path, e ≠ .new path) (hd : ∀ h, e ≠ .destroy h) : Independent B s' := by
    have hsame := sameItems_step hI hn hd hs
    refine (independent_iff (stat_step hI hs)).2 fun k a hk => ?_
    rw [hsame.handle] at hk
    rw [hsame.table]
    exact hi.item k a hk
  cases e with
  | new path =>
    cases hs
    exact iff_of_true (hi.new hI) trivial
  | destroy k => exact destroy_independent_iff hI hi hs
  | wait | resume | interrupt | event | io | setRc | spawn | exit =>
    exact iff_of_true (hother (by simp) (by simp)) trivial

end

/-- In every run: the handles stay good exactly as long as no handle is destroyed
that shares its item. -/
theorem stat_handles_independent_iff {D : Diag} {B : BytesFns} {es : List StatEvent} {s : StatSt}
    (h : exec (statStep D B) .init es = some s) :
    (∀ pre post u, es = pre ++ post → exec (statStep D B) .init pre = some u → Independent B u) ↔
      Along (statStep D B) SoleHandle .init es :=
  exec_inv_iff (B := fun _ _ => True) (fun _ _ _ hI hs => stat_step hI hs)
    (fun _ _ _ hI _ hi hs => independent_step hI hi hs) stat_init
    ((independent_iff stat_init).2 fun _ _ hh => by cases hh)
    (along_of_forall fun _ _ => trivial) h

/-- `SoleHandle` as a test of the handles that there are. -/
def soleHandle (s : StatSt) : StatEvent → Bool
  | .destroy h => (List.range s.nhandles).all fun k => k = h || s.handle k != s.handle h
  | _ => true

theorem soleHandle_sound {s : StatSt} {e : StatEvent} (hI : StatInv s) (hp : soleHandle s e) :
    SoleHandle s e := by
  cases e with
  | destroy h =>
    intro k hk a hh hka
    have hlt : k < s.nhandles := by
      by_contra hlt
      rw [hI.fresh k (Nat.le_of_not_lt hlt)] at hka
      cases hka
    have hone := List.all_eq_true.1 hp k (List.mem_range.2 hlt)
    simp [hk, hh, hka] at hone
  | _ => trivial

/-- Two handles of one path, and one of another, which is destroyed. -/
def threeHandles : List StatEvent := [.new [97], .new [97], .new [98], .destroy 2]

theorem stat_handles_independent_three :
    ∃ s, exec (statStep .sample .sample) .init threeHandles = some s ∧ s.table = [0] ∧
      Independent .sample s := by
  obtain ⟨s, hs⟩ := Option.isSome_iff_exists.1
    (show (exec (statStep .sample .sample) .init threeHandles).isSome by decide)
  refine ⟨s, hs, fact_of_map hs (f := StatSt.table) (by decide),
    (stat_handles_independent_iff hs).2 ?_ threeHandles [] s rfl hs⟩
  exact along_of_check (fun _ _ _ hI hs => stat_step hI hs)
    (fun _ _ hI hp => soleHandle_sound hI hp) stat_init (by decide)

/-- The first handle of a path is destroyed, and the item of the second is freed. -/
theorem stat_item_freed : ∃ s,
    exec (statStep .sample .sample) .init [.new [97], .new [97], .destroy 0] = some s ∧
    s.handle 1 = some 0 ∧ s.table = [] ∧ ¬ Independent .sample s ∧
    s.statDestroy .sample 1 = none ∧ s.waitBegin .sample 1 1 = none := by
  obtain ⟨s, hs⟩ := Option.isSome_iff_exists.1
    (show (exec (statStep .sample .sample) .init
      [.new [97], .new [97], .destroy 0]).isSome by decide)
  have hh : s.handle 1 = some 0 := fact_of_map hs (f := fun s => s.handle 1) (by decide)
  have ht : s.table = [] := fact_of_map hs (f := StatSt.table) (by decide)
  have hfreed : s.handleItem 1 = none := by simp [handleItem, hh, ht]
  refine ⟨s, hs, hh, ht, fun hi => ?_, by simp [statDestroy, hfreed], by simp [waitBegin, hfreed]⟩
  simpa [ht] using hi.item 1 0 hh

end Mnthr

import Mathlib.Data.List.Nodup
import Mathlib.Data.List.Perm.Subperm

/-!
# Owned lists

`Linked lists owner` says that each list holds exactly the elements that name it as their owner, and
each of them once: an intrusive list beside the back pointers of its entries. `Separate lists` says
that no element is twice in the lists, without back pointers. `Threaded next stop head l` says that
`l` is what a walk along `next` from `head` to `stop` meets.
-/

namespace Wine.Lib

variable {κ α : Type} {lists : κ → List α} {owner : α → Option κ}
  {c d : κ} {a : α} {l m : List α}

structure Linked (lists : κ → List α) (owner : α → Option κ) : Prop where
  nodup : ∀ c, (lists c).Nodup
  mem_iff : ∀ a c, a ∈ lists c ↔ owner a = some c

structure Separate (lists : κ → List α) : Prop where
  nodup : ∀ c, (lists c).Nodup
  unique : ∀ a c d, a ∈ lists c → a ∈ lists d → c = d

namespace Linked

theorem empty : Linked (fun _ : κ => ([] : List α)) (fun _ => none) where
  nodup _ := List.nodup_nil
  mem_iff a c := by simp only [List.not_mem_nil, reduceCtorEq]

theorem owner_of_mem (h : Linked lists owner) (ha : a ∈ lists c) : owner a = some c :=
  (h.mem_iff a c).mp ha

theorem mem_of_owner (h : Linked lists owner) (ha : owner a = some c) : a ∈ lists c :=
  (h.mem_iff a c).mpr ha

theorem not_mem_of_owner (h : Linked lists owner) (ha : owner a = none) : a ∉ lists c := by
  intro hm
  rw [h.owner_of_mem hm] at ha
  cases ha

/-- A list may be put in another order. -/
theorem reorder [DecidableEq κ] (h : Linked lists owner) (hp : l.Perm (lists c)) :
    Linked (Function.update lists c l) owner where
  nodup d := by
    by_cases hd : d = c
    · subst hd
      rw [Function.update_self]
      exact hp.nodup_iff.mpr (h.nodup d)
    · rw [Function.update_of_ne hd]
      exact h.nodup d
  mem_iff b d := by
    by_cases hd : d = c
    · subst hd
      rw [Function.update_self, hp.mem_iff]
      exact h.mem_iff b d
    · rw [Function.update_of_ne hd]
      exact h.mem_iff b d

theorem insert [DecidableEq κ] [DecidableEq α] (h : Linked lists owner) (ha : owner a = none)
    (hp : l.Perm (a :: lists c)) :
    Linked (Function.update lists c l) (Function.update owner a (some c)) where
  nodup d := by
    by_cases hd : d = c
    · subst hd
      rw [Function.update_self, hp.nodup_iff]
      exact List.nodup_cons.mpr ⟨h.not_mem_of_owner ha, h.nodup d⟩
    · rw [Function.update_of_ne hd]
      exact h.nodup d
  mem_iff b d := by
    by_cases hb : b = a
    · subst hb
      rw [Function.update_self]
      by_cases hd : d = c
      · subst hd
        simp only [Function.update_self, hp.mem_iff, List.mem_cons_self]
      · rw [Function.update_of_ne hd]
        exact ⟨fun hm => (h.not_mem_of_owner ha hm).elim,
          fun he => (hd (Option.some.inj he).symm).elim⟩
    · rw [Function.update_of_ne hb]
      by_cases hd : d = c
      · subst hd
        rw [Function.update_self, hp.mem_iff, List.mem_cons, or_iff_right hb]
        exact h.mem_iff b d
      · rw [Function.update_of_ne hd]
        exact h.mem_iff b d

theorem remove [DecidableEq κ] [DecidableEq α] (h : Linked lists owner)
    (hp : (lists c).Perm (a :: l)) :
    Linked (Function.update lists c l) (Function.update owner a none) where
  nodup d := by
    by_cases hd : d = c
    · subst hd
      rw [Function.update_self]
      exact (List.nodup_cons.mp (hp.nodup_iff.mp (h.nodup d))).2
    · rw [Function.update_of_ne hd]
      exact h.nodup d
  mem_iff b d := by
    have hmem : a ∈ lists c := hp.mem_iff.mpr List.mem_cons_self
    have hout : a ∉ l := (List.nodup_cons.mp (hp.nodup_iff.mp (h.nodup c))).1
    by_cases hb : b = a
    · subst hb
      rw [Function.update_self]
      refine ⟨fun hm => ?_, (fun h => by cases h)⟩
      by_cases hd : d = c
      · subst hd
        rw [Function.update_self] at hm
        exact (hout hm).elim
      · rw [Function.update_of_ne hd] at hm
        have hdc := (h.owner_of_mem hm).symm.trans (h.owner_of_mem hmem)
        exact (hd (Option.some.inj hdc)).elim
    · rw [Function.update_of_ne hb]
      by_cases hd : d = c
      · subst hd
        rw [Function.update_self, ← h.mem_iff b d, hp.mem_iff, List.mem_cons, or_iff_right hb]
      · rw [Function.update_of_ne hd]
        exact h.mem_iff b d

/-- An element without an owner is in no list, so its removal changes nothing. -/
theorem remove_of_none [DecidableEq α] (h : Linked lists owner) (ha : owner a = none) :
    Linked lists (Function.update owner a none) := by
  rw [← ha, Function.update_eq_self]
  exact h

end Linked

namespace Separate

theorem empty : Separate (fun _ : κ => ([] : List α)) where
  nodup _ := List.nodup_nil
  unique _ _ _ ha _ := (List.not_mem_nil ha).elim

/-- A list may lose elements and be put in another order. -/
theorem shrink [DecidableEq κ] (h : Separate lists) (hp : l.Subperm (lists c)) :
    Separate (Function.update lists c l) := by
  have hsub : ∀ b d, b ∈ Function.update lists c l d → b ∈ lists d := by
    intro b d hb
    by_cases hd : d = c
    · subst hd
      rw [Function.update_self] at hb
      exact hp.subset hb
    · rwa [Function.update_of_ne hd] at hb
  refine ⟨fun d => ?_, fun b d d' hb hb' => h.unique b d d' (hsub b d hb) (hsub b d' hb')⟩
  by_cases hd : d = c
  · subst hd
    rw [Function.update_self]
    obtain ⟨l', hl', hs⟩ := hp
    exact hl'.nodup_iff.mp ((h.nodup d).sublist hs)
  · rw [Function.update_of_ne hd]
    exact h.nodup d

theorem insert [DecidableEq κ] (h : Separate lists) (ha : ∀ d, a ∉ lists d)
    (hp : l.Subperm (a :: lists c)) :
    Separate (Function.update lists c l) := by
  have hsub : ∀ b d, b ∈ Function.update lists c l d → b ∈ lists d ∨ b = a ∧ d = c := by
    intro b d hb
    by_cases hd : d = c
    · subst hd
      rw [Function.update_self] at hb
      exact (List.mem_cons.mp (hp.subset hb)).symm.imp_right fun hba => ⟨hba, rfl⟩
    · rw [Function.update_of_ne hd] at hb
      exact .inl hb
  refine ⟨fun d => ?_, fun b d d' hb hb' => ?_⟩
  · by_cases hd : d = c
    · subst hd
      rw [Function.update_self]
      obtain ⟨l', hl', hs⟩ := hp
      exact hl'.nodup_iff.mp ((List.nodup_cons.mpr ⟨ha d, h.nodup d⟩).sublist hs)
    · rw [Function.update_of_ne hd]
      exact h.nodup d
  · cases hsub b d hb with
    | inl hm =>
      cases hsub b d' hb' with
      | inl hm' => exact h.unique b d d' hm hm'
      | inr hm' => exact (ha d (hm'.1 ▸ hm)).elim
    | inr hm =>
      cases hsub b d' hb' with
      | inl hm' => exact (ha d' (hm.1 ▸ hm')).elim
      | inr hm' => exact hm.2.trans hm'.2.symm

/-- An element may go from one list to another. -/
theorem move [DecidableEq κ] (h : Separate lists) (hcd : c ≠ d) (hl : (lists c).Perm (a :: l))
    (hm : m.Perm (a :: lists d)) :
    Separate (Function.update (Function.update lists c l) d m) := by
  have hnotin : a ∉ l := (List.nodup_cons.mp (hl.nodup_iff.mp (h.nodup c))).1
  have hshrink : Separate (Function.update lists c l) :=
    h.shrink ((List.sublist_cons_self a l).subperm.trans hl.symm.subperm)
  refine hshrink.insert (a := a) (fun e he => ?_) ?_
  · by_cases hec : e = c
    · subst hec
      rw [Function.update_self] at he
      exact hnotin he
    · rw [Function.update_of_ne hec] at he
      exact hec (h.unique a e c he (hl.mem_iff.mpr List.mem_cons_self))
  · rw [Function.update_of_ne hcd.symm]
    exact hm.subperm

end Separate

/-- A list of different numbers is no longer than there are numbers for it. -/
theorem length_le_of_nodup {l : List ℕ} {n : ℕ} (h : l.Nodup) (hlt : ∀ i ∈ l, i < n) :
    l.length ≤ n := by
  have hsub : l ⊆ List.range n := fun i hi => List.mem_range.mpr (hlt i hi)
  have hle := (List.subperm_of_subset h hsub).length_le
  rwa [List.length_range] at hle

/-! ## Queues threaded through a function -/

section Threaded

variable {κ : Type} {next next' : κ → κ} {stop head id t : κ} {l : List κ}

/-- The queue `l` starts at `head`. From each of its entries `next` leads to the one behind it, and
from the last one to `stop`. -/
def Threaded (next : κ → κ) (stop : κ) : κ → List κ → Prop
  | head, [] => head = stop
  | head, a :: l => head = a ∧ a ≠ stop ∧ Threaded next stop (next a) l

theorem Threaded.congr (h : Threaded next stop head l) (hn : ∀ a ∈ l, next' a = next a) :
    Threaded next' stop head l := by
  induction l generalizing head with
  | nil => exact h
  | cons a l ih =>
    obtain ⟨hhead, ha, hl⟩ := h
    refine ⟨hhead, ha, ?_⟩
    rw [hn a List.mem_cons_self]
    exact ih hl fun b hb => hn b (List.mem_cons_of_mem a hb)

theorem Threaded.head_eq_stop (h : Threaded next stop head l) : head = stop ↔ l = [] := by
  cases l with
  | nil => exact ⟨fun _ => rfl, fun _ => h⟩
  | cons a l => exact ⟨fun hs => absurd (h.1.symm.trans hs) h.2.1, (fun hl => by cases hl)⟩

theorem Threaded.ne_stop (h : Threaded next stop head l) {a : κ} (ha : a ∈ l) : a ≠ stop := by
  induction l generalizing head with
  | nil => exact absurd ha List.not_mem_nil
  | cons b l ih =>
    rcases List.mem_cons.mp ha with rfl | hb
    · exact h.2.1
    · exact ih h.2.2 hb

theorem Threaded.getLast?_eq_stop (h : Threaded next stop head l) :
    l.getLast?.getD stop = stop ↔ l = [] := by
  cases hl : l.getLast? with
  | none => simpa using List.getLast?_eq_none_iff.mp hl
  | some t =>
    have hmem : t ∈ l := List.mem_of_getLast? hl
    refine ⟨fun hs => absurd hs (h.ne_stop hmem), fun hnil => ?_⟩
    subst hnil
    cases hl

/-- An entry is put behind the last one. -/
theorem Threaded.push (h : Threaded next stop head l) (hl : l.Nodup) (ht : l.getLast? = some t)
    (hid : id ∉ l) (hne : id ≠ stop) (hnext : ∀ a ∈ l, a ≠ t → next' a = next a)
    (hlast : next' id = stop) (hlink : next' t = id) : Threaded next' stop head (l ++ [id]) := by
  induction l generalizing head with
  | nil => cases ht
  | cons a l ih =>
    obtain ⟨hhead, ha, hrest⟩ := h
    refine ⟨hhead, ha, ?_⟩
    cases l with
    | nil =>
      obtain rfl : a = t := by simpa using ht
      exact ⟨hlink, hne, hlast⟩
    | cons b l =>
      rw [List.getLast?_cons_cons] at ht
      have hat : a ≠ t := by
        rintro rfl
        exact (List.nodup_cons.mp hl).1 (List.mem_of_getLast? ht)
      rw [hnext a List.mem_cons_self hat]
      exact ih hrest (List.nodup_cons.mp hl).2 ht (fun hm => hid (List.mem_cons_of_mem a hm))
        fun c hc => hnext c (List.mem_cons_of_mem a hc)

end Threaded

end Wine.Lib

import Mathlib.Data.List.Nodup

/-!
# Forests with parent pointers

A forest whose nodes know their parent and the ordered list of their children. `preorder` lists a
subtree depth first, and `after` lists what comes behind a node of it: the subtrees of the following
siblings of the node, of its parent and so on up to the root of the subtree.
-/

namespace Wine.Lib

/-- Some children of a node may be missing from its list. -/
structure Forest (α : Type) where
  parent : α → Option α
  children : α → List α
  depth : α → ℕ
  height : ℕ
  parent_of_mem : ∀ a, ∀ c ∈ children a, parent c = some a
  nodup : ∀ a, (children a).Nodup
  depth_parent : ∀ c a, parent c = some a → depth c = depth a + 1
  depth_lt : ∀ a, depth a < height

namespace Forest

variable {α : Type} (F : Forest α) {a b c r : α}

/-- The levels from a node down. -/
def room (a : α) : ℕ := F.height - F.depth a

theorem room_pos (a : α) : 0 < F.room a := Nat.sub_pos_of_lt (F.depth_lt a)

variable {F}

theorem room_child (h : c ∈ F.children a) : F.room a = F.room c + 1 := by
  have hdepth := F.depth_parent c a (F.parent_of_mem a c h)
  have hlt := F.depth_lt c
  unfold room
  omega

/-- Induction from the children to the parent. -/
theorem child_induction {P : α → Prop} (h : ∀ a, (∀ c ∈ F.children a, P c) → P a) (a : α) : P a := by
  generalize hn : F.room a = n
  induction n generalizing a with
  | zero => exact absurd hn (Nat.ne_of_gt (F.room_pos a))
  | succ n ih =>
    apply h
    intro c hc
    apply ih
    have hroom := room_child hc
    omega

variable (F)

/-! ## The order of a subtree -/

def preorderTo : ℕ → α → List α
  | 0, _ => []
  | n + 1, a => a :: (F.children a).flatMap (preorderTo n)

def preorder (a : α) : List α := F.preorderTo (F.room a) a

def below (a : α) : List α := (F.children a).flatMap F.preorder

theorem preorder_eq (a : α) : F.preorder a = a :: F.below a := by
  unfold preorder below
  obtain ⟨n, hn⟩ := Nat.exists_eq_succ_of_ne_zero (Nat.ne_of_gt (F.room_pos a))
  rw [hn, preorderTo]
  congr 1
  apply List.flatMap_congr
  intro c hc
  have hroom := room_child hc
  rw [preorder, show F.room c = n by omega]

variable {F}

theorem mem_preorder_self : a ∈ F.preorder a := by
  rw [preorder_eq]
  exact List.mem_cons_self

theorem mem_below : b ∈ F.below a ↔ ∃ c ∈ F.children a, b ∈ F.preorder c := by
  unfold below
  exact List.mem_flatMap

theorem mem_preorder : b ∈ F.preorder a ↔ b = a ∨ ∃ c ∈ F.children a, b ∈ F.preorder c := by
  rw [preorder_eq, List.mem_cons, mem_below]

theorem depth_le (h : b ∈ F.preorder a) : F.depth a ≤ F.depth b := by
  induction a using F.child_induction with
  | _ a ih =>
    rcases mem_preorder.mp h with rfl | ⟨c, hc, hb⟩
    · exact Nat.le_refl _
    · have hle := ih c hc hb
      have hdepth := F.depth_parent c a (F.parent_of_mem a c hc)
      omega

/-- Above a node of a subtree stands another node of it, unless it is the root. -/
theorem parent_mem (h : b ∈ F.preorder a) (hne : b ≠ a) :
    ∃ p ∈ F.preorder a, b ∈ F.children p := by
  induction a using F.child_induction with
  | _ a ih =>
    rcases mem_preorder.mp h with rfl | ⟨c, hc, hb⟩
    · exact absurd rfl hne
    · by_cases hbc : b = c
      · subst hbc
        exact ⟨a, mem_preorder_self, hc⟩
      · obtain ⟨p, hp, hbp⟩ := ih c hc hb hbc
        exact ⟨p, mem_preorder.mpr (Or.inr ⟨c, hc, hp⟩), hbp⟩

theorem eq_root_of_depth_le (h : b ∈ F.preorder a) (hdepth : F.depth b ≤ F.depth a) : b = a := by
  by_contra hne
  obtain ⟨p, hp, hb⟩ := parent_mem h hne
  have hle := depth_le hp
  have hlt := F.depth_parent b p (F.parent_of_mem p b hb)
  omega

/-- Subtrees of equal depth that meet are the same. -/
theorem eq_of_mem_preorder (ha : b ∈ F.preorder a) (hc : b ∈ F.preorder c)
    (hdepth : F.depth a = F.depth c) : a = c := by
  generalize hn : F.depth b = n
  induction n generalizing b with
  | zero =>
    rw [← eq_root_of_depth_le ha (by omega), ← eq_root_of_depth_le hc (by omega)]
  | succ n ih =>
    by_cases hba : b = a
    · subst hba
      exact eq_root_of_depth_le hc (Nat.le_of_eq hdepth)
    · have hbc : b ≠ c := by
        intro heq
        subst heq
        exact hba (eq_root_of_depth_le ha (Nat.le_of_eq hdepth.symm))
      obtain ⟨p, hp, hbp⟩ := parent_mem ha hba
      obtain ⟨q, hq, hbq⟩ := parent_mem hc hbc
      have hpq : p = q :=
        Option.some.inj ((F.parent_of_mem p b hbp).symm.trans (F.parent_of_mem q b hbq))
      subst hpq
      have hd := F.depth_parent b p (F.parent_of_mem p b hbp)
      exact ih hp hq (by omega)

theorem nodup_preorder (F : Forest α) (a : α) : (F.preorder a).Nodup := by
  induction a using F.child_induction with
  | _ a ih =>
    rw [preorder_eq, List.nodup_cons]
    constructor
    · intro hmem
      obtain ⟨c, hc, ha⟩ := mem_below.mp hmem
      have hle := depth_le ha
      have hdepth := F.depth_parent c a (F.parent_of_mem a c hc)
      omega
    · unfold below
      rw [List.nodup_flatMap]
      refine ⟨ih, (F.nodup a).imp_of_mem fun hc hd hne b hbc hbd => hne ?_⟩
      apply eq_of_mem_preorder hbc hbd
      rw [F.depth_parent _ a (F.parent_of_mem a _ hc), F.depth_parent _ a (F.parent_of_mem a _ hd)]

/-! ## What comes behind a node -/

variable [DecidableEq α] (F)

def laterSiblings (p c : α) : List α := ((F.children p).dropWhile (· ≠ c)).tail

def afterTo (r : α) : ℕ → α → List α
  | 0, _ => []
  | n + 1, c =>
    if c = r then []
    else match F.parent c with
      | none => []
      | some p => (F.laterSiblings p c).flatMap F.preorder ++ afterTo r n p

def after (r c : α) : List α := F.afterTo r (F.depth c + 1) c

@[simp] theorem after_self (r : α) : F.after r r = [] := by
  unfold after
  rw [afterTo, if_pos rfl]

variable {F}

theorem after_child (hc : c ∈ F.children b) (hne : c ≠ r) :
    F.after r c = (F.laterSiblings b c).flatMap F.preorder ++ F.after r b := by
  have hparent := F.parent_of_mem b c hc
  unfold after
  rw [afterTo, if_neg hne, F.depth_parent c b hparent]
  simp only [hparent]

theorem children_split (hc : c ∈ F.children b) :
    ∃ l, F.children b = l ++ c :: F.laterSiblings b c := by
  obtain ⟨l, l', hl, hnot⟩ := List.eq_append_cons_of_mem hc
  refine ⟨l, hl.trans ?_⟩
  unfold laterSiblings
  rw [hl, List.dropWhile_append_of_pos]
  · simp
  · intro a ha
    have hne : a ≠ c := fun heq => hnot (heq ▸ ha)
    simp [hne]

theorem preorder_split (h : c ∈ F.preorder r) :
    ∃ l, F.preorder r = l ++ c :: (F.below c ++ F.after r c) := by
  generalize hn : F.depth c = n
  induction n generalizing c with
  | zero =>
    obtain rfl := eq_root_of_depth_le h (by omega)
    exact ⟨[], by rw [after_self, List.append_nil, List.nil_append, preorder_eq]⟩
  | succ n ih =>
    by_cases hcr : c = r
    · subst hcr
      exact ⟨[], by rw [after_self, List.append_nil, List.nil_append, preorder_eq]⟩
    · obtain ⟨p, hp, hc⟩ := parent_mem h hcr
      have hd := F.depth_parent c p (F.parent_of_mem p c hc)
      obtain ⟨l, hl⟩ := ih hp (by omega)
      obtain ⟨l', hl'⟩ := children_split hc
      have hbelow : F.below p = l'.flatMap F.preorder ++
          (c :: F.below c ++ (F.laterSiblings p c).flatMap F.preorder) := by
        rw [below, hl', List.flatMap_append, List.flatMap_cons, preorder_eq]
      refine ⟨l ++ p :: l'.flatMap F.preorder, ?_⟩
      rw [hl, hbelow, after_child hc hcr]
      simp only [List.append_assoc, List.cons_append]

theorem eq_of_preorder_split {l l' : List α} (h : F.preorder r = l ++ c :: l') :
    l' = F.below c ++ F.after r c := by
  have hmem : c ∈ F.preorder r := by
    rw [h]
    exact List.mem_append_cons_self
  obtain ⟨m, hm⟩ := preorder_split hmem
  have hnodup := F.nodup_preorder r
  rw [hm] at hnodup
  have hnot := (List.nodup_cons.mp (List.nodup_middle.mp hnodup)).1
  rw [List.mem_append, not_or] at hnot
  exact ((List.append_cons_inj_of_notMem hnot.1 hnot.2).mp (hm.symm.trans h)).2.2.symm

end Forest

end Wine.Lib

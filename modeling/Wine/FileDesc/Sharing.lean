import Wine.FileDesc.Linked

/-!
# Sharing modes

Any two open descriptors of an inode allow each other what they ask for, and an open that fails
leaves the files, the names to unlink and the modes of the other descriptors alone.
-/

namespace Wine.FileDesc
open Wine.Lib
open Wine.Server (Status Access)

/-! ## Compatible modes -/

/-- The rights of the first fd are shared by the second. -/
structure SharedBy (x y : Fd) : Prop where
  read : x.access &&& fileUnixReadAccess ≠ 0 → y.sharing &&& fileShareRead ≠ 0
  write : x.access &&& fileUnixWriteAccess ≠ 0 → y.sharing &&& fileShareWrite ≠ 0
  delete : x.access &&& delete ≠ 0 → y.sharing &&& fileShareDelete ≠ 0

/-- The open list of an inode; that of a destroyed one is empty. -/
def State.openList (s : State) (i : InodeId) : List FdId := ((s.inode i).map (·.openFds)).getD []

/-- Distinct descriptors of an inode share with each other, and those without access share all. -/
structure Shared (s : State) : Prop where
  pairwise : ∀ i f g x y, f ∈ s.openList i → g ∈ s.openList i → f ≠ g → s.fd f = some x →
    s.fd g = some y → SharedBy x y
  noAccess : ∀ i f x, f ∈ s.openList i → s.fd f = some x → x.access = 0 →
    x.sharing = fileShareRead ||| fileShareWrite ||| fileShareDelete

theorem and_and_ne_zero {a b m : Access} (h : a &&& b &&& m ≠ 0) : a &&& m ≠ 0 ∧ b &&& m ≠ 0 := by
  constructor <;> intro h0 <;> apply h
  · rw [BitVec.and_assoc, BitVec.and_comm b, ← BitVec.and_assoc, h0]
    exact BitVec.zero_and
  · rw [BitVec.and_assoc, h0]
    exact BitVec.and_zero

theorem or_and_ne_zero {a b m : Access} (h : a &&& m ≠ 0 ∨ b &&& m ≠ 0) :
    (a ||| b) &&& m ≠ 0 := by
  intro h0
  rw [BitVec.and_or_distrib_right] at h0
  obtain ⟨ha, hb⟩ := BitVec.or_eq_zero_iff.mp h0
  exact h.elim (· ha) (· hb)

theorem existingSharing_le {s : State} {f g : FdId} {y : Fd} {m : Access} {l : List FdId}
    (hg : g ∈ l) (hgf : g ≠ f) (hy : s.fd g = some y) (h : existingSharing s f l &&& m ≠ 0) :
    y.sharing &&& m ≠ 0 := by
  induction l with
  | nil => cases hg
  | cons a l ih =>
    rw [existingSharing] at h
    rcases List.mem_cons.mp hg with rfl | hg
    · rw [if_neg hgf, hy, Option.map_some, Option.getD_some] at h
      exact (and_and_ne_zero h).2
    · split at h
      · exact ih hg h
      · exact ih hg (and_and_ne_zero h).1

theorem le_existingAccess {s : State} {f g : FdId} {y : Fd} {m : Access} {l : List FdId}
    (hg : g ∈ l) (hgf : g ≠ f) (hy : s.fd g = some y) (h : y.access &&& m ≠ 0) :
    existingAccess s f l &&& m ≠ 0 := by
  induction l with
  | nil => cases hg
  | cons a l ih =>
    rw [existingAccess]
    rcases List.mem_cons.mp hg with rfl | hg
    · rw [if_neg hgf, hy, Option.map_some, Option.getD_some]
      exact or_and_ne_zero (.inr h)
    · split
      · exact ih hg
      · exact or_and_ne_zero (.inl (ih hg))

theorem not_refusedBy {access mask sharing share : Access}
    (h : refusedBy access mask sharing share = false) (ha : access &&& mask ≠ 0) :
    sharing &&& share ≠ 0 := by
  intro hs
  rw [refusedBy, decide_eq_true ha, decide_eq_true hs] at h
  cases h

theorem sharedBy_of_allowed {s : State} {f g : FdId} {x y : Fd} {l : List FdId}
    (h : sharingAllowed x.access x.sharing (existingAccess s f l) (existingSharing s f l) = true)
    (hg : g ∈ l) (hgf : g ≠ f) (hy : s.fd g = some y) : SharedBy x y ∧ SharedBy y x := by
  simp only [sharingAllowed, Bool.and_eq_true, Bool.not_eq_true'] at h
  obtain ⟨⟨⟨⟨⟨h₁, h₂⟩, h₃⟩, h₄⟩, h₅⟩, h₆⟩ := h
  have hle : ∀ {m : Access}, existingSharing s f l &&& m ≠ 0 → y.sharing &&& m ≠ 0 :=
    existingSharing_le hg hgf hy
  have hge : ∀ {m : Access}, y.access &&& m ≠ 0 → existingAccess s f l &&& m ≠ 0 :=
    le_existingAccess hg hgf hy
  exact ⟨⟨fun ha => hle (not_refusedBy h₁ ha), fun ha => hle (not_refusedBy h₂ ha),
      fun ha => hle (not_refusedBy h₃ ha)⟩,
    ⟨fun ha => not_refusedBy h₄ (hge ha), fun ha => not_refusedBy h₅ (hge ha),
      fun ha => not_refusedBy h₆ (hge ha)⟩⟩

/-! ## Closing keeps what is shared -/

theorem Keeps.openList_sublist {s s' : State} (h : Keeps s s') (i : InodeId) :
    (s'.openList i).Sublist (s.openList i) := by
  unfold State.openList
  cases hn : s'.inode i with
  | none => exact List.nil_sublist _
  | some n' =>
    rcases h.inode i n' hn with ⟨ho, -⟩ | ⟨n, hn', hsame⟩
    · simp only [Option.map_some, Option.getD_some, ho, List.nil_sublist]
    · simpa only [Option.map_some, Option.getD_some, hn'] using hsame.open_sub

theorem Shared.of_keeps {s s' : State} (hs : Shared s) (h : Keeps s s') : Shared s' := by
  have hmem : ∀ i f, f ∈ s'.openList i → f ∈ s.openList i := fun i _ hf =>
    (h.openList_sublist i).subset hf
  refine ⟨fun i f g x' y' hf hg hne hx' hy' => ?_, fun i f x' hf hx' ha => ?_⟩
  · obtain ⟨x, hx, hsx⟩ := h.fd f x' hx'
    obtain ⟨y, hy, hsy⟩ := h.fd g y' hy'
    have hsh := hs.pairwise i f g x y (hmem i f hf) (hmem i g hg) hne hx hy
    exact ⟨by rw [hsx.access_eq, hsy.sharing_eq]; exact hsh.read,
      by rw [hsx.access_eq, hsy.sharing_eq]; exact hsh.write,
      by rw [hsx.access_eq, hsy.sharing_eq]; exact hsh.delete⟩
  · obtain ⟨x, hx, hsx⟩ := h.fd f x' hx'
    rw [hsx.sharing_eq]
    exact hs.noAccess i f x (hmem i f hf) hx (hsx.access_eq ▸ ha)

/-! ## An open in progress -/

/-- Events of a change to a file, or to the names to unlink. -/
def Event.modifies : Event → Bool
  | .truncate _ | .pendUnlink .. => true
  | _ => false

def Tame (s s' : State) : Prop :=
  ∃ es, s'.events = es ++ s.events ∧ ∀ e ∈ es, e.modifies = false

theorem Tame.refl (s : State) : Tame s s := ⟨[], rfl, by simp⟩

theorem Tame.trans {s s' s'' : State} (h : Tame s s') (h' : Tame s' s'') : Tame s s'' := by
  obtain ⟨es, he, hes⟩ := h
  obtain ⟨es', he', hes'⟩ := h'
  refine ⟨es' ++ es, by rw [he', he, List.append_assoc], fun e hm => ?_⟩
  exact (List.mem_append.mp hm).elim (hes' e) (hes e)

theorem Tame.of_events {s s' : State} (h : s'.events = s.events) : Tame s s' := ⟨[], h, by simp⟩

theorem Event.modifies_eq_false_of_mild {e : Event} (h : e.mild = true) : e.modifies = false := by
  cases e <;> first | rfl | cases h

theorem Effect.tame {s s' : State} (h : Effect s s') : Tame s s' := by
  obtain ⟨es, he, hes⟩ := h.mildly
  exact ⟨es, he, fun e hm => Event.modifies_eq_false_of_mild (hes e hm)⟩

theorem Effects.tame {s s' : State} (h : Effects s s') : Tame s s' := by
  induction h with
  | refl => exact .refl s
  | tail _ he ih => exact ih.trans he.tame

/-- Only `f`, which is new, differs; it has the value `x`, and the open lists are `o`. -/
structure Opening (s t : State) (f : FdId) (x : Option Fd) (o : InodeId → List FdId) : Prop where
  fd : t.fd = Function.update s.fd f x
  openList : t.openList = o
  tame : Tame s t

variable {s t : State} {f : FdId} {x : Fd} {o : InodeId → List FdId}

theorem Opening.fd_self {x : Option Fd} (h : Opening s t f x o) : t.fd f = x := by
  rw [h.fd, Function.update_self]

theorem Opening.fd_other {x : Option Fd} (h : Opening s t f x o) {g : FdId} (hg : g ≠ f) :
    t.fd g = s.fd g := by
  rw [h.fd, Function.update_of_ne hg]

/-- What changes neither a descriptor nor an open list keeps the progress of the open. -/
theorem Opening.keep {x : Option Fd} {r : State} (h : Opening s t f x o) (hf : r.fd = t.fd)
    (ho : r.openList = t.openList) (ht : Tame t r) : Opening s r f x o :=
  ⟨hf.trans h.fd, ho.trans h.openList, h.tame.trans ht⟩

theorem Opening.update {x : Option Fd} {t' : State} (h : Opening s t f x o) {y : Option Fd}
    {o' : InodeId → List FdId} (hf : t'.fd = Function.update t.fd f y) (ho : t'.openList = o')
    (ht : Tame t t') : Opening s t' f y o' :=
  ⟨by rw [hf, h.fd, Function.update_idem], ho, h.tame.trans ht⟩

theorem openList_setInode (t : State) (i : InodeId) (n : Inode) :
    (t.setInode i (some n)).openList = Function.update t.openList i n.openFds := by
  funext j
  rcases eq_or_ne j i with rfl | hne
  · simp [State.openList, State.setInode]
  · simp [State.openList, State.setInode, hne]

theorem openList_setInode_same {t : State} {i : InodeId} {n m : Inode} (hn : t.inode i = some n)
    (h : m.openFds = n.openFds) : (t.setInode i (some m)).openList = t.openList := by
  rw [openList_setInode, h]
  refine Function.update_eq_self_iff.mpr ?_
  simp [State.openList, hn]

/-! ### Steps that neither touch a descriptor nor an open list -/

/-- Nothing that sharing depends on changes. -/
structure SameOpen (t t' : State) : Prop where
  fd : t'.fd = t.fd
  openList : t'.openList = t.openList

theorem SameOpen.of_eq {r : State} (hf : r.fd = t.fd) (hi : r.inode = t.inode) :
    SameOpen t r := ⟨hf, by unfold State.openList; rw [hi]⟩

theorem SameOpen.trans {t' t'' : State} (h : SameOpen t t') (h' : SameOpen t' t'') :
    SameOpen t t'' := ⟨h'.fd.trans h.fd, h'.openList.trans h.openList⟩

theorem wp_releaseDevice_sameOpen (d : DeviceId) (t : State) :
    wp (releaseDevice d) (fun _ t' => SameOpen t t') anyFault t := by
  simp only [releaseDevice, wp_bind, wp_get]
  cases t.device d with
  | none => trivial
  | some y =>
    simp only [wp_ite, wp_bind, wp_assert, wp_set]
    exact ⟨fun _ _ => .of_eq rfl rfl, fun _ => .of_eq rfl rfl⟩

theorem wp_getDevice_sameOpen (dev : ℕ) (create mem : Bool) (t : State) :
    wp (getDevice dev create mem) (fun _ t' => SameOpen t t') anyFault t := by
  simp only [getDevice, wp_bind, wp_get]
  cases findDevice t dev with
  | some d =>
    cases hd : t.device d with
    | none => simp only [hd, wp_throw, anyFault]
    | some y =>
      simp only [hd, wp_bind, wp_set, wp_pure]
      exact .of_eq rfl rfl
  | none =>
    simp only [wp_ite, wp_bind, wp_pure, wp_set, setError, wp_modify]
    exact ⟨fun _ => .of_eq rfl rfl, fun _ => ⟨fun _ => .of_eq rfl rfl, fun _ => .of_eq rfl rfl⟩⟩

theorem wp_inodeDestroy_sameOpen (i : InodeId) (t : State) :
    wp (inodeDestroy i) (fun _ t' => SameOpen t t') anyFault t := by
  simp only [inodeDestroy, wp_bind, wp_getInode, wp_assert, wp_get, List.isEmpty_iff]
  intro n hn ho _
  cases hd : t.device n.device with
  | none => trivial
  | some d =>
    simp only [wp_bind, wp_set]
    refine wp_mono (wp_releaseDevice_sameOpen n.device _) fun _ t' h => .trans ?_ h
    rw [State.dropInode, closeAndUnlink_eq]
    refine ⟨rfl, funext fun j => ?_⟩
    -- the inode that goes away had an empty list
    rcases eq_or_ne j i with rfl | hne
    · simp [State.openList, State.setInode, State.setDevice, hn, ho]
    · simp [State.openList, State.setInode, State.setDevice, hne]

theorem wp_releaseInode_sameOpen (i : InodeId) (t : State) :
    wp (releaseInode i) (fun _ t' => SameOpen t t') anyFault t := by
  simp only [releaseInode, wp_bind, wp_getInode, wp_ite, wp_modify]
  exact fun n hn => ⟨fun _ => wp_inodeDestroy_sameOpen i t, fun _ =>
    ⟨rfl, openList_setInode_same hn rfl⟩⟩

theorem sameOpen_addClosed {i : InodeId} {n : Inode} (hn : t.inode i = some n) (c : ClosedFd) :
    SameOpen t (addClosed t i n c) := by
  unfold addClosed
  split
  · exact ⟨rfl, openList_setInode_same hn rfl⟩
  · rw [closeUnixFd_eq]
    split
    · exact .trans (.of_eq rfl rfl) ⟨rfl, openList_setInode_same (n := n) (m := { n with
        closed := { c with unixFd := none } :: n.closed }) hn rfl⟩
    · exact .of_eq rfl rfl

/-- An inode that did not exist has no list yet. -/
theorem wp_getInodeFor_sameOpen (dev ino : ℕ) (memDevice memInode : Bool) (hl : Linked t) :
    wp (getInodeFor dev ino memDevice memInode) (fun _ t' => SameOpen t t') anyFault t := by
  simp only [getInodeFor, wp_bind]
  refine wp_mono (wp_and (wp_getDevice_sameOpen dev true memDevice t)
    (does_getDevice dev true memDevice t)) fun r t₁ hpost => ?_
  obtain ⟨h, he⟩ := hpost
  have hl₁ : Linked t₁ := he.invariant hl fun _ _ => Effect.linked
  cases r with
  | none => exact h
  | some d =>
    simp only [wp_bind, wp_get]
    cases hd : t₁.device d with
    | none => trivial
    | some y =>
      simp only
      split
      · simp only [wp_bind]
        refine wp_mono (wp_releaseDevice_sameOpen d t₁) fun _ t₂ h₂ => ?_
        simp only [wp_getInode, wp_modify, wp_pure]
        exact fun n hn => (h.trans h₂).trans ⟨rfl, openList_setInode_same hn rfl⟩
      · simp only [wp_ite, wp_bind, wp_set, wp_pure, setError, wp_modify]
        refine ⟨fun _ => h.trans ⟨rfl, ?_⟩, fun _ => wp_mono (wp_releaseDevice_sameOpen d _)
          fun _ _ h₂ => (h.trans (SameOpen.of_eq (r := { t₁ with
            error := Server.statusNoMemory }) rfl rfl)).trans h₂⟩
        have hfresh : t₁.inode t₁.nextInode = none := by
          rcases hn : t₁.inode t₁.nextInode with _ | n
          · rfl
          · exact absurd (hl₁.inode_lt _ n hn) (lt_irrefl _)
        funext j
        rcases eq_or_ne j t₁.nextInode with rfl | hne
        · simp [State.openList, State.setInode, State.setDevice, hfresh]
        · simp [State.openList, State.setInode, State.setDevice, hne]

/-! ### The end of an open -/

/-- An fd without locks just leaves. -/
theorem wp_removeFdLocks_nil (hx : t.fd f = some x) (hl : x.locks = []) (Q : PUnit → State → Prop)
    (hQ : Q ⟨⟩ t) : wp (removeFdLocks f) Q anyFault t := by
  simp [removeFdLocks, removeFdLocksLoop, wp_ite, hx, hl, hQ]

theorem wp_failOpen (e : Status) (h : Opening s t f (some x) o) (hl : x.locks = []) :
    wp (failOpen f e) (fun r t' => r = none ∧ Opening s t' f none
      (match x.inode with
        | some i => Function.update o i ((o i).erase f)
        | none => o)) anyFault t := by
  have hx := h.fd_self
  simp only [failOpen, fdDestroy, wp_bind, wp_pure, true_and]
  refine wp_removeFdLocks_nil hx hl _ ?_
  simp only [wp_getFd]
  intro y hy
  cases hx.symm.trans hy
  cases hi : x.inode with
  | none =>
    simp only [wp_modify, setError]
    refine h.update ?_ ?_ ?_ <;> unfold State.closeFd <;> split
    · rfl
    · rfl
    · exact h.openList
    · exact h.openList
    · exact ⟨[_], rfl, by simp [Event.modifies]⟩
    · exact .of_events rfl
  | some i =>
    simp only [leaveInode, inodeAddClosedFd, wp_bind, wp_getInode, wp_modify]
    intro n hn n' hn'
    have hn'' : n' = { n with openFds := n.openFds.erase f } := by
      simpa [State.dropFd, State.setInode, State.setFd] using hn'.symm
    subst hn''
    have hdrop : Opening s (t.dropFd f i n) f none (Function.update o i ((o i).erase f)) := by
      refine h.update rfl ?_ (.of_events rfl)
      have hoi : o i = n.openFds := by
        rw [← h.openList]
        simp [State.openList, hn]
      rw [hoi, ← h.openList]
      exact openList_setInode t i _
    have hadd := sameOpen_addClosed hn' x.closed
    have hleave : Effect t (addClosed (t.dropFd f i n) i { n with openFds := n.openFds.erase f }
      x.closed) := .leave hx hi hn
    have htame : Tame t (addClosed (t.dropFd f i n) i { n with openFds := n.openFds.erase f }
      x.closed) := hleave.tame
    refine wp_mono (wp_and (wp_releaseInode_sameOpen i _) (does_releaseInode i _))
      fun _ t' hpost => ?_
    obtain ⟨hs, he⟩ := hpost
    simp only [setError, wp_modify]
    have hsame := hadd.trans hs
    exact ⟨hsame.fd.trans hdrop.fd, hsame.openList.trans hdrop.openList,
      h.tame.trans (htame.trans (he.tame.trans (.of_events rfl)))⟩

/-- The fd that `check_sharing` has let in. -/
theorem Shared.letIn {i : InodeId} (hs : Shared s) (hfresh : ∀ j, f ∉ s.openList j)
    (hfd : t.fd = Function.update s.fd f (some x))
    (ho : t.openList = Function.update s.openList i (f :: s.openList i))
    (hallowed : ∀ g ∈ s.openList i, ∀ y, s.fd g = some y → SharedBy x y ∧ SharedBy y x)
    (hno : x.access = 0 → x.sharing = fileShareRead ||| fileShareWrite ||| fileShareDelete) :
    Shared t := by
  have hmem : ∀ j g, g ∈ t.openList j → (g = f ∧ j = i) ∨ (g ≠ f ∧ g ∈ s.openList j) := by
    intro j g hg
    rw [ho] at hg
    have hold : g ∈ s.openList j → g ≠ f := fun hg h => hfresh j (h ▸ hg)
    rcases eq_or_ne j i with rfl | hne
    · rw [Function.update_self] at hg
      rcases List.mem_cons.mp hg with rfl | hg
      · exact .inl ⟨rfl, rfl⟩
      · exact .inr ⟨hold hg, hg⟩
    · rw [Function.update_of_ne hne] at hg
      exact .inr ⟨hold hg, hg⟩
  have hself : ∀ y, t.fd f = some y → y = x := by
    intro y hy
    rw [hfd, Function.update_self, Option.some.injEq] at hy
    exact hy.symm
  have hother : ∀ g ≠ f, t.fd g = s.fd g := by
    intro g hg
    rw [hfd, Function.update_of_ne hg]
  refine ⟨fun j g k y z hg hk hne hy hz => ?_, fun j g y hg hy ha => ?_⟩
  · rcases hmem j g hg with ⟨rfl, rfl⟩ | ⟨hgf, hg⟩ <;>
      rcases hmem _ k hk with ⟨rfl, hji⟩ | ⟨hkf, hk⟩
    · exact absurd rfl hne
    · cases hself y hy
      exact (hallowed k hk z (hother k hkf ▸ hz)).1
    · cases hself z hz
      exact (hallowed g (hji ▸ hg) y (hother g hgf ▸ hy)).2
    · exact hs.pairwise j g k y z hg hk hne (hother g hgf ▸ hy) (hother k hkf ▸ hz)
  · rcases hmem j g hg with ⟨rfl, rfl⟩ | ⟨hgf, hg⟩
    · cases hself y hy
      exact hno ha
    · exact hs.noAccess j g y hg (hother g hgf ▸ hy) ha

/-- The descriptors on the lists are the same. -/
theorem Shared.of_listed (hs : Shared s) (ho : t.openList = s.openList)
    (hfd : ∀ i g, g ∈ s.openList i → ∀ y, t.fd g = some y → s.fd g = some y) : Shared t := by
  refine ⟨fun i g k y z hg hk hne hy hz => ?_, fun i g y hg hy => ?_⟩
  · rw [ho] at hg hk
    exact hs.pairwise i g k y z hg hk hne (hfd i g hg y hy) (hfd i k hk z hz)
  · rw [ho] at hg
    exact hs.noAccess i g y hg (hfd i g hg y hy)

theorem Shared.of_undone (hs : Shared s) (h : Opening s t f none s.openList) : Shared t := by
  refine hs.of_listed h.openList fun i g _ y hy => ?_
  rcases eq_or_ne g f with rfl | hne
  · rw [h.fd_self] at hy
    cases hy
  · rwa [h.fd_other hne] at hy

/-- The outcome of an open: an fd that fits in, or nothing has happened to anyone else. -/
def OpenEnd (s : State) (f : FdId) (r : Option FdId) (t : State) : Prop :=
  Shared t ∧ (r = none → Opening s t f none s.openList)

theorem wp_failOpen_end (e : Status) (hs : Shared s) (h : Opening s t f (some x) o)
    (hl : x.locks = []) (ho : (match x.inode with
      | some i => Function.update o i ((o i).erase f)
      | none => o) = s.openList) :
    wp (failOpen f e) (fun r t' => OpenEnd s f r t') anyFault t := by
  refine wp_mono (wp_failOpen e h hl) fun r t' hpost => ?_
  obtain ⟨_, h'⟩ := hpost
  rw [ho] at h'
  exact ⟨hs.of_undone h', fun _ => h'⟩

theorem wp_openInode_end {i : InodeId} {u : UnixFd} (req : OpenRequest) (st : Stat) (trunc : Bool)
    (hs : Shared s) (hfresh : ∀ j, f ∉ s.openList j) (h : Opening s t f (some x) s.openList)
    (hl : x.locks = []) :
    wp (openInode f i u req st trunc) (fun r t' => OpenEnd s f r t') anyFault t := by
  simp only [openInode, joinInode, wp_bind, wp_getFd, wp_getInode, wp_modify]
  intro x' hx' n hn
  cases h.fd_self.symm.trans hx'
  have hoi : n.openFds = s.openList i := by
    rw [← h.openList]
    simp [State.openList, hn]
  have hjoin : Opening s (t.join f x i n u) f
      (some { x with inode := some i, closed := ⟨some u, ""⟩ })
      (Function.update s.openList i (f :: s.openList i)) := by
    refine h.update rfl ?_ ⟨[_], rfl, by simp [Event.modifies]⟩
    rw [← hoi, ← h.openList]
    exact openList_setInode t i _
  have hback : Function.update (Function.update s.openList i (f :: s.openList i)) i
      ((Function.update s.openList i (f :: s.openList i) i).erase f) = s.openList := by
    simp
  rw [wp_ite]
  refine ⟨fun _ => wp_failOpen_end _ hs hjoin hl hback, fun _ => ?_⟩
  rw [wp_ite]
  refine ⟨fun _ => wp_failOpen_end _ hs hjoin hl hback, fun _ => ?_⟩
  simp only [checkSharing, wp_bind, wp_getFd, wp_modify, wp_getInode, wp_get, wp_pure]
  intro y hy m hm
  cases hjoin.fd_self.symm.trans hy
  set sharing := (if req.access = 0 then fileShareRead ||| fileShareWrite ||| fileShareDelete
    else req.sharing) with hsharing
  set z : Fd := { x with
    inode := some i, closed := ⟨some u, ""⟩, access := req.access, sharing := sharing } with hz
  have hshare : Opening s ((t.join f x i n u).setFd f (some z)) f (some z)
      (Function.update s.openList i (f :: s.openList i)) :=
    hjoin.update rfl hjoin.openList (.of_events rfl)
  rw [wp_ite]
  refine ⟨fun _ => wp_failOpen_end _ hs hshare hl hback, fun hallowed => ?_⟩
  have hm' : m.openFds = f :: s.openList i := by
    have := congrFun hshare.openList i
    rw [Function.update_self] at this
    rw [← this]
    exact (congrArg (fun o => (o.map (·.openFds)).getD []) hm).symm
  rw [Bool.not_eq_true', Bool.not_eq_false] at hallowed
  have hadmit : ∀ z' t', z'.access = z.access → z'.sharing = z.sharing →
      t'.fd = Function.update s.fd f (some z') →
      t'.openList = Function.update s.openList i (f :: s.openList i) → OpenEnd s f (some f) t' := by
    intro z' t' ha hsh hfd ho
    refine ⟨hs.letIn hfresh hfd ho (fun g hg y hy => ?_) fun h0 => ?_, fun h => (by cases h)⟩
    · have hgf : g ≠ f := fun h => hfresh i (h ▸ hg)
      refine sharedBy_of_allowed (s := (t.join f x i n u).setFd f (some z)) (f := f)
        (l := m.openFds) ?_ ?_ hgf ((hshare.fd_other hgf).trans hy)
      · rw [ha, hsh]
        exact hallowed
      · rw [hm']
        exact List.mem_cons_of_mem _ hg
    · rw [hsh]
      exact if_pos (ha.symm.trans h0)
  simp only [wp_bind, wp_getFd]
  intro y hy
  cases hshare.fd_self.symm.trans hy
  split
  · simp only [wp_bind, wp_modify, wp_ite, wp_pure]
    have hfd := (congrArg (Function.update · f (some { z with closed := ⟨some u, req.name⟩ }))
      hshare.fd).trans (Function.update_idem ..)
    exact ⟨fun _ => hadmit { z with closed := ⟨some u, req.name⟩ } _ rfl rfl hfd hshare.openList,
      fun _ => hadmit { z with closed := ⟨some u, req.name⟩ } _ rfl rfl hfd hshare.openList⟩
  · simp only [wp_bind, wp_modify, wp_ite, wp_pure]
    exact ⟨fun _ => hadmit _ _ rfl rfl hshare.fd hshare.openList, fun _ =>
      hadmit _ _ rfl rfl hshare.fd hshare.openList⟩

theorem wp_openFd_end (req : OpenRequest) (out : OpenOutcome) (hl : Linked s) (hs : Shared s) :
    wp (openFd req out) (fun r t => OpenEnd s s.nextFd r t) anyFault s := by
  have hnone : ∀ e, wp (do setError e; pure none : M (Option FdId))
      (fun r t => OpenEnd s s.nextFd r t) anyFault s := by
    intro e
    simp only [setError, wp_bind, wp_modify, wp_pure]
    have h : Opening s { s with error := e } s.nextFd none s.openList := by
      refine ⟨?_, rfl, .of_events rfl⟩
      rw [← hl.fd_fresh, Function.update_eq_self]
    exact ⟨hs.of_undone h, fun _ => h⟩
  have hfresh : ∀ j, s.nextFd ∉ s.openList j := by
    intro j hf
    unfold State.openList at hf
    cases hn : s.inode j with
    | none => simp [hn] at hf
    | some n =>
      obtain ⟨x, hx, -⟩ := hl.open_fd j n s.nextFd hn (by simpa [hn] using hf)
      rw [hl.fd_fresh] at hx
      cases hx
  unfold openFd
  rw [wp_ite]
  refine ⟨fun _ => hnone _, fun _ => ?_⟩
  rw [wp_ite]
  refine ⟨fun _ => hnone _, fun _ => ?_⟩
  simp only [allocFdObject, wp_bind, wp_get, wp_set, wp_pure]
  have halloc : Opening s s.allocFd s.nextFd (some newFd) s.openList := ⟨rfl, rfl, .of_events rfl⟩
  have hlalloc : Linked s.allocFd := hl.allocFd
  rw [wp_ite]
  refine ⟨fun _ => wp_failOpen_end _ hs halloc rfl rfl, fun _ => ?_⟩
  rw [wp_ite]
  refine ⟨fun _ => wp_failOpen_end _ hs halloc rfl rfl, fun _ => ?_⟩
  cases out.unixOpen with
  | none => exact wp_failOpen_end _ hs halloc rfl rfl
  | some st =>
    simp only [setUnixFd, wp_bind, wp_getFd, wp_get, wp_set, wp_pure]
    intro x hx
    cases halloc.fd_self.symm.trans hx
    have hunix : Opening s (s.allocFd.giveUnixFd s.nextFd newFd) s.nextFd
        (some { newFd with unixFd := some s.nextUnix }) s.openList :=
      halloc.update rfl rfl (.of_events rfl)
    have hlunix : Linked (s.allocFd.giveUnixFd s.nextFd newFd) :=
      (Change.giveUnixFd halloc.fd_self rfl rfl).linked hlalloc
    rw [wp_ite]
    refine ⟨fun _ => ?_, fun _ => ?_⟩
    · rw [wp_bind]
      refine wp_mono (wp_and (wp_getInodeFor_sameOpen _ _ _ _ hlunix) (does_getInodeFor _ _ _ _ _))
        fun r t hpost => ?_
      obtain ⟨hsame, he⟩ := hpost
      have ht := hunix.keep hsame.fd hsame.openList he.tame
      cases r with
      | none =>
        simp only [wp_bind, wp_modify]
        exact wp_failOpen_end _ hs (ht.keep rfl rfl ⟨[_], rfl, by simp [Event.modifies]⟩) rfl rfl
      | some i => exact wp_openInode_end req st _ hs hfresh ht rfl
    · have hspecial := hunix.keep (r := (s.allocFd.giveUnixFd s.nextFd newFd).record
        (.opened s.nextUnix none)) rfl rfl ⟨[_], rfl, by simp [Event.modifies]⟩
      simp only [openSpecial, wp_bind, wp_modify, wp_ite, wp_pure]
      refine ⟨fun _ => wp_failOpen_end _ hs hspecial rfl rfl, fun _ =>
        ⟨fun _ => wp_failOpen_end _ hs hspecial rfl rfl, fun _ => ⟨?_, fun h => (by cases h)⟩⟩⟩
      refine hs.of_listed hspecial.openList fun i g hg y hy => ?_
      exact (hspecial.fd_other fun h => hfresh i (h ▸ hg)).symm.trans hy

/-! ## Runs -/

theorem shared_initial : Shared .initial := ⟨fun _ _ _ _ _ h => (by cases h), fun _ _ _ h => (by cases h)⟩

variable {fcntl : ℕ → FcntlResult} {ok : State → Action → Prop}

theorem Shared.addLock {i : InodeId} {n : Inode} (hs : Shared s) (hx : s.fd f = some x)
    (hn : s.inode i = some n) (p : ProcessId) (shared : Bool) (start end_ : FilePos) :
    Shared (s.addLock f x i n p shared start end_) := by
  have ho : (s.addLock f x i n p shared start end_).openList = s.openList :=
    openList_setInode_same (t := s) (m := { n with locks := s.nextLock :: n.locks }) hn rfl
  have hmode : ∀ g y, (s.addLock f x i n p shared start end_).fd g = some y →
      ∃ z, s.fd g = some z ∧ y.access = z.access ∧ y.sharing = z.sharing := by
    intro g y hy
    simp only [State.addLock, State.linkLock, State.setProcessLocks, State.setInode, State.setFd,
      State.setLock] at hy
    rcases eq_or_ne g f with rfl | hne
    · rw [Function.update_self, Option.some.injEq] at hy
      subst hy
      exact ⟨x, hx, rfl, rfl⟩
    · rw [Function.update_of_ne hne] at hy
      exact ⟨y, hy, rfl, rfl⟩
  refine ⟨fun j g k y z hg hk hne hy hz => ?_, fun j g y hg hy ha => ?_⟩
  · rw [ho] at hg hk
    obtain ⟨y', hy', hay, hsy⟩ := hmode g y hy
    obtain ⟨z', hz', haz, hsz⟩ := hmode k z hz
    have h := hs.pairwise j g k y' z' hg hk hne hy' hz'
    exact ⟨by rw [hay, hsz]; exact h.read, by rw [hay, hsz]; exact h.write,
      by rw [hay, hsz]; exact h.delete⟩
  · rw [ho] at hg
    obtain ⟨z, hz, hay, hsy⟩ := hmode g y hy
    rw [hsy]
    exact hs.noAccess j g z hg hz (hay ▸ ha)

theorem wp_act_shared (a : Action) (hl : Linked s) (hs : Shared s) :
    wp (act fcntl a) (fun _ t => Shared t) anyFault s := by
  have hs₀ : Shared { s with error := 0 } := ⟨hs.pairwise, hs.noAccess⟩
  have hdoes : ∀ {m : M PUnit}, Does m →
      wp m (fun _ t => Shared t) anyFault { s with error := 0 } := fun hm =>
    wp_mono (hm _) fun _ t he => hs₀.of_keeps he.keeps
  simp only [act, wp_bind, wp_modify]
  cases a with
  | openFd req out =>
    simp only [wp_bind, wp_pure]
    have hl₀ : Linked { s with error := 0 } := hl.of_same (.of_eq rfl rfl rfl rfl rfl rfl)
    exact wp_mono (wp_openFd_end req out hl₀ hs₀) fun _ t h => h.1
  | lockFd p f start count shared wait mem =>
    simp only [wp_bind, wp_get, wp_ite, wp_pure]
    refine ⟨fun _ => wp_mono (wp_lockFd fcntl p f start count shared wait mem _) fun _ t ht => ?_,
      fun _ => hs₀⟩
    rcases ht with he | ⟨m, x, i, n, he, hx, hi, hn, _, _, rfl⟩
    · exact hs₀.of_keeps he.keeps
    · exact (hs₀.of_keeps he.keeps).addLock hx hn _ _ _ _
  | unlockFd f start count =>
    exact hdoes (.of_get fun t => Does.ite (does_unlockFd f start count) (.pure _) t)
  | destroyFd f => exact hdoes (.of_get fun t => Does.ite (does_fdDestroy f) (.pure _) t)
  | exitProcess p => exact hdoes (does_removeProcessLocks p)
  | unmountDevice dev => exact hdoes (does_unmountDevice dev)

theorem shared_of_run {as : List Action} (hr : Run (step fcntl) ok .initial as s) : Shared s := by
  refine (hr.invariant (I := fun t => Linked t ∧ Shared t) ⟨linked_initial, shared_initial⟩
    fun t a t' ht _ hst => ?_).2
  exact wp_of_step (wp_and (wp_mono (wp_act_changes fcntl a t) fun _ _ h =>
    h.invariant ht.1 fun _ _ => Change.linked) (wp_act_shared a ht.1 ht.2)) hst

/-- Whatever the requests, the descriptors of an inode share with each other, and an open that fails
leaves all other descriptors, their modes and the lists as they were, truncates nothing and records no
name. -/
theorem compatible_run {as : List Action} (hr : Run (step fcntl) ok .initial as s) :
    (∀ i n f g x y, s.inode i = some n → f ∈ n.openFds → g ∈ n.openFds → f ≠ g →
      s.fd f = some x → s.fd g = some y →
      SharedBy x y ∧ (x.access = 0 →
        x.sharing = fileShareRead ||| fileShareWrite ||| fileShareDelete)) ∧
    ∀ req out t, openFd req out { s with error := 0 } = .ok (none, t) →
      t.fd = s.fd ∧ t.openList = s.openList ∧
        ∃ es, t.events = es ++ s.events ∧ ∀ e ∈ es, e.modifies = false := by
  have hs := shared_of_run hr
  have hl := linked_run hr
  refine ⟨fun i n f g x y hn hf hg hne hx hy => ?_, fun req out t ht => ?_⟩
  · have ho : s.openList i = n.openFds := by simp [State.openList, hn]
    rw [← ho] at hf hg
    exact ⟨hs.pairwise i f g x y hf hg hne hx hy, hs.noAccess i f x hf hx⟩
  · have hl' : Linked { s with error := 0 } := hl.of_same (.of_eq rfl rfl rfl rfl rfl rfl)
    have hs' : Shared { s with error := 0 } := ⟨hs.pairwise, hs.noAccess⟩
    have hend := (wp_of_ok (wp_openFd_end req out hl' hs') ht).2 rfl
    refine ⟨?_, hend.openList, hend.tame⟩
    rw [hend.fd]
    exact (congrArg (Function.update s.fd s.nextFd) hl.fd_fresh.symm).trans
      (Function.update_eq_self ..)

/-- Two readers of a file that share it for reading, and a writer that is refused. -/
def sharingRequest (access : Access) : OpenRequest :=
  ⟨"file", false, false, true, access, fileShareRead, false, false, false⟩

def regularOutcome (ino : ℕ) : OpenOutcome :=
  ⟨true, true, .ok, some ⟨1, ino, true, false⟩, 0, true, true⟩

def readers : List Action :=
  [.openFd (sharingRequest fileReadData) (regularOutcome 7),
    .openFd (sharingRequest fileReadData) (regularOutcome 7)]

def refusedOpen (s : State) : Bool :=
  match openFd (sharingRequest fileWriteData) (regularOutcome 7) { s with error := 0 } with
  | .ok (none, t) => decide (t.error = statusSharingViolation) && decide (s.openList 0 = [1, 0])
  | _ => false

theorem compatible_readers : ∃ s, Run (step fun _ => .ok) (fun _ _ => True) .initial readers s ∧
    (∃ t, openFd (sharingRequest fileWriteData) (regularOutcome 7) { s with error := 0 } =
      .ok (none, t) ∧ t.error = statusSharingViolation ∧ t.openList = s.openList) ∧
    s.openList 0 = [1, 0] ∧ ∀ x y, s.fd 0 = some x → s.fd 1 = some y → SharedBy x y := by
  obtain ⟨s, hr, hp⟩ := run_of_execTo (f := step fun _ => .ok) (s := .initial)
    (q := fun _ _ => True) (g := fun _ _ => true) (l := readers) (p := refusedOpen)
    (fun _ _ _ => trivial) (by decide +kernel)
  obtain ⟨hshared, hfail⟩ := compatible_run hr
  unfold refusedOpen at hp
  split at hp
  · next t ht =>
    simp only [Bool.and_eq_true, decide_eq_true_eq] at hp
    obtain ⟨n, hn⟩ : ∃ n, s.inode 0 = some n := by
      cases hn : s.inode 0 with
      | none => simp [State.openList, hn] at hp
      | some n => exact ⟨n, rfl⟩
    have ho : n.openFds = [1, 0] := by simpa [State.openList, hn] using hp.2
    refine ⟨s, hr, ⟨t, ht, hp.1, (hfail _ _ t ht).2.1⟩, hp.2, fun x y hx hy => ?_⟩
    exact (hshared 0 n 0 1 x y hn (by simp [ho]) (by simp [ho]) (by decide) hx hy).1
  · cases hp

end Wine.FileDesc

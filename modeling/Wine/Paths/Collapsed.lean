import Mathlib.Data.List.Chain
import Wine.Paths.Collapse

/-!
# What is left of a path

Nothing to traverse is left of a normalized path, unless a directory `...` lost its last dot: it stays
when no `..` takes it back and another component follows.
-/

namespace Wine.Paths
open Lib.Components

/-- `...` -/
def threeDots : List WChar := [dot, dot, dot]

/-- Nothing to traverse is left behind `mark`. -/
structure Collapsed (path : List WChar) (mark : ℕ) (result : List WChar) : Prop where
  length_le : result.length ≤ path.length
  take_eq : result.take mark = (path.take mark).map toBackslash
  no_slash : slash ∉ result.drop mark
  no_double : ¬[backslash, backslash] <:+: result.drop mark
  no_here : here ∉ components (result.drop mark)
  no_up : up ∉ components (result.drop mark)

variable {kept rest name next path : List WChar} {stack : List (List WChar)} {c last : WChar}
  {mark : ℕ}

/-- No two backslashes follow each other. -/
abbrev Single (a b : WChar) : Prop := a ≠ backslash ∨ b ≠ backslash

theorem dedupFrom_single (last : WChar) (rest : List WChar) :
    (last :: dedupFrom last rest).IsChain Single := by
  induction rest generalizing last with
  | nil => exact List.isChain_singleton last
  | cons c rest ih =>
    rw [dedupFrom]
    split
    · next h => exact List.isChain_cons_cons.mpr ⟨h.symm, ih c⟩
    · exact ih last

theorem dedupFrom_sublist (last : WChar) (rest : List WChar) :
    (dedupFrom last rest).Sublist rest := by
  induction rest generalizing last with
  | nil => exact List.Sublist.refl []
  | cons c rest ih =>
    rw [dedupFrom]
    split
    · exact (ih c).cons_cons c
    · exact (ih last).cons c

/-- A directory name as it is shown. -/
def shown (name : List WChar) : List WChar := (stripDot name.reverse).reverse

theorem shown_plain (h : backslash ∉ name) : backslash ∉ shown name := fun hmem =>
  h (List.mem_reverse.mp (stripDot_sublist.subset (List.mem_reverse.mp hmem)))

/-- The names on the stack are the components of what is kept. -/
theorem components_keptOf (hstack : Plain stack) (hname : backslash ∉ name) :
    components ((keptOf stack).reverse ++ name) = (stack.map shown).reverse ++ [name] := by
  induction stack generalizing name with
  | nil => exact components_name hname
  | cons n stack ih =>
    have hn := hstack n List.mem_cons_self
    have hrest := ih (fun m hm => hstack m (List.mem_cons_of_mem _ hm)) (shown_plain hn)
    rw [keptOf, List.reverse_cons, List.reverse_append, List.append_assoc, List.singleton_append,
      components, List.splitOn_append_cons_self, List.map_cons, List.reverse_cons]
    exact congrArg₂ (· ++ ·) hrest (components_name hname)

theorem trim_keptOf : trim (keptOf stack) = keptOf stack := by
  cases stack with
  | nil => rfl
  | cons name stack => rfl

theorem trim_append : trim (name ++ keptOf stack) = trim name ++ keptOf stack := by
  rw [trim, List.dropWhile_append]
  split
  · next h =>
    rw [trim, List.isEmpty_iff.mp h]
    exact trim_keptOf
  · rfl

theorem trim_suffix : trim kept <:+ kept := List.dropWhile_suffix _

/-- A name that was trimmed does not end in a dot. -/
theorem trim_head : (trim kept).head? ≠ some dot := by
  intro h
  have hnot := List.head?_dropWhile_not (fun c => decide (c = space ∨ c = dot)) kept
  rw [trim] at h
  rw [h] at hnot
  exact absurd hnot (by decide)

/-- A name that is shown without its last dot, or as it is. -/
theorem shown_cases (name : List WChar) : name = shown name ++ [dot] ∨ name = shown name := by
  rw [shown, stripDot]
  split
  · next hhead =>
    obtain ⟨tail, htail⟩ := List.head?_eq_some_iff.mp hhead
    refine Or.inl ?_
    rw [htail, List.tail_cons, ← List.reverse_cons, ← htail, List.reverse_reverse]
  · exact Or.inr (List.reverse_reverse name).symm

/-- Only `...` is shown as `..`. -/
theorem shown_eq_up_iff (h : Proper here up name) : shown name = up ↔ name = threeDots := by
  constructor
  · intro heq
    rcases shown_cases name with hname | hname
    · rw [hname, heq]
      rfl
    · exact absurd (hname.trans heq) h.2
  · rintro rfl
    rfl

theorem shown_ne_here (h : Proper here up name) : shown name ≠ here := by
  intro heq
  rcases shown_cases name with hname | hname
  · rw [heq] at hname
    exact h.2 hname
  · exact h.1 (hname.trans heq)

/-- The names on the stack, apart from the one on top, are the components of the result. -/
theorem components_trimmed (hstack : Plain (name :: stack)) :
    components (trimmed (name :: stack)).reverse =
      (stack.map shown).reverse ++ [(trim name.reverse).reverse] := by
  have hplain : Plain stack := fun n hn => hstack n (List.mem_cons_of_mem _ hn)
  have hname := hstack name List.mem_cons_self
  rw [trimmed, trim_append, List.reverse_append]
  refine components_keptOf hplain fun hmem => hname ?_
  exact List.mem_reverse.mp (trim_suffix.subset (List.mem_reverse.mp hmem))

theorem trim_reverse_ne_concat : (trim kept).reverse ≠ name ++ [dot] := by
  intro h
  have hrev := congrArg List.reverse h
  rw [List.reverse_reverse, List.reverse_append] at hrev
  have hhead : (trim kept).head? ≠ some dot := trim_head
  rw [hrev] at hhead
  exact hhead rfl

/-- The result has no component `.`, and `..` is one when `...` is on the stack below its top. -/
theorem trimmed_components (hstack : Plain stack) (hproper : ∀ name ∈ stack, Proper here up name) :
    here ∉ components (trimmed stack).reverse ∧
      (up ∈ components (trimmed stack).reverse ↔ threeDots ∈ stack.tail) := by
  cases stack with
  | nil => exact ⟨by decide, iff_of_false (by decide) List.not_mem_nil⟩
  | cons name stack =>
    rw [components_trimmed hstack, List.tail_cons]
    have htop : ∀ n : List WChar, n ++ [dot] ∉ [(trim name.reverse).reverse] := fun n hmem =>
      trim_reverse_ne_concat (List.mem_singleton.mp hmem).symm
    have hmap : ∀ n, n ∈ (stack.map shown).reverse ↔ ∃ m ∈ stack, shown m = n := fun n => by
      rw [List.mem_reverse, List.mem_map]
    constructor
    · intro hmem
      rcases List.mem_append.mp hmem with hmem | hmem
      · obtain ⟨m, hm, heq⟩ := (hmap _).mp hmem
        exact shown_ne_here (hproper m (List.mem_cons_of_mem _ hm)) heq
      · exact htop [] hmem
    · have hlast : up ∉ [(trim name.reverse).reverse] := htop [dot]
      rw [List.mem_append, or_iff_left hlast, hmap]
      constructor
      · rintro ⟨m, hm, heq⟩
        exact (shown_eq_up_iff (hproper m (List.mem_cons_of_mem _ hm))).mp heq ▸ hm
      · exact fun hm => ⟨threeDots, hm, rfl⟩

theorem back_suffix : back kept <:+ kept :=
  (List.dropWhile_suffix _).trans (List.tail_suffix kept)

/-- Going back ends behind a backslash or at the mark. -/
theorem back_boundary : back kept = [] ∨ (back kept).head? = some backslash := by
  rw [back]
  cases hdrop : kept.tail.dropWhile (· ≠ backslash) with
  | nil => exact Or.inl rfl
  | cons c rest =>
    have hc := List.head?_dropWhile_not (fun c => decide (c ≠ backslash)) kept.tail
    rw [hdrop, List.head?_cons] at hc
    have heq : c = backslash := by simpa using hc
    rw [heq]
    exact Or.inr rfl

/-- No round adds or moves a character. -/
theorem collapseStep_sublist (kept rest : List WChar) :
    ((collapseStep kept rest).1.reverse ++ (collapseStep kept rest).2).Sublist (kept.reverse ++ rest) := by
  obtain ⟨name, hname, heq | ⟨next, heq⟩⟩ := split_name rest
  · rw [heq, collapseStep_last hname, List.append_nil]
    split
    · exact (List.tail_sublist kept).reverse.trans (List.sublist_append_left _ _)
    split
    · exact ((List.tail_sublist _).trans back_suffix.sublist).reverse.trans
        (List.sublist_append_left _ _)
    · rw [List.reverse_append, List.reverse_reverse]
  · have hnext : next.Sublist (name ++ backslash :: next) :=
      (List.sublist_cons_self _ next).trans (List.sublist_append_right name _)
    rw [heq, collapseStep_append hname]
    dsimp only
    split
    · exact List.Sublist.append (List.Sublist.refl _) hnext
    split
    · exact List.Sublist.append back_suffix.sublist.reverse hnext
    · have hstrip : (stripDot (name.reverse ++ kept)).reverse.Sublist (name.reverse ++ kept).reverse :=
        stripDot_sublist.reverse
      rw [List.reverse_append, List.reverse_reverse] at hstrip
      rw [List.reverse_cons, List.append_assoc, ← List.append_assoc kept.reverse]
      exact List.Sublist.append hstrip (List.Sublist.refl _)

/-- The position is at the start of a component, and no two backslashes follow each other. -/
structure Neat (kept rest : List WChar) : Prop where
  kept_single : kept.IsChain Single
  rest_single : rest.IsChain Single
  boundary : kept = [] ∨ kept.head? = some backslash ∧ rest.head? ≠ some backslash

theorem isChain_of_not_mem (h : backslash ∉ name) : name.IsChain Single := by
  induction name with
  | nil => exact List.IsChain.nil
  | cons c name ih =>
    have hc : c ≠ backslash := fun heq => h (heq ▸ List.mem_cons_self)
    exact List.isChain_cons.mpr ⟨fun _ _ => Or.inl hc, ih fun hmem => h (List.mem_cons_of_mem _ hmem)⟩

theorem isChain_append_of_not_mem (h : backslash ∉ name) (hkept : kept.IsChain Single) :
    (name ++ kept).IsChain Single := by
  refine List.isChain_append.mpr ⟨isChain_of_not_mem h, hkept, fun c hc _ _ => Or.inl fun heq => h ?_⟩
  exact heq ▸ List.mem_of_getLast? hc

theorem Neat.final (h : Neat kept name) (hname : backslash ∉ name) :
    (collapseStep kept name).1.IsChain Single := by
  rw [collapseStep_last hname]
  dsimp only
  split
  · exact h.kept_single.suffix (List.tail_suffix kept)
  split
  · exact h.kept_single.suffix ((List.tail_suffix _).trans back_suffix)
  · exact isChain_append_of_not_mem (fun hmem => hname (List.mem_reverse.mp hmem)) h.kept_single

theorem Neat.step (h : Neat kept (name ++ backslash :: next)) (hname : backslash ∉ name) :
    Neat (collapseStep kept (name ++ backslash :: next)).1 next := by
  obtain ⟨-, hbehind, -⟩ := List.isChain_append.mp h.rest_single
  obtain ⟨hfirst, hnext⟩ := List.isChain_cons.mp hbehind
  have hhead : next.head? ≠ some backslash := fun heq =>
    (hfirst backslash heq).elim (fun h => h rfl) fun h => h rfl
  rw [collapseStep_append hname]
  dsimp only
  split
  · next hhere =>
    refine ⟨h.kept_single, hnext, h.boundary.imp_right fun hb => ⟨hb.1, hhead⟩⟩
  split
  · next hhere hup =>
    exact ⟨h.kept_single.suffix back_suffix, hnext, back_boundary.imp_right fun hb => ⟨hb, hhead⟩⟩
  · next hhere hup =>
    refine ⟨?_, hnext, Or.inr ⟨rfl, hhead⟩⟩
    cases hrev : name.reverse with
    | nil =>
      -- an empty component is at the mark
      obtain rfl := List.reverse_eq_nil_iff.mp hrev
      rcases h.boundary with rfl | hb
      · exact List.isChain_singleton backslash
      · exact absurd rfl hb.2
    | cons c front =>
      have hmem : ∀ d ∈ c :: front, d ≠ backslash := fun d hd heq => by
        rw [← hrev, List.mem_reverse] at hd
        exact hname (heq ▸ hd)
      rw [stripDot]
      split
      · next hdot =>
        rw [List.cons_append, List.tail_cons]
        refine List.isChain_cons.mpr ⟨fun d hd => ?_, ?_⟩
        · cases front with
          | nil =>
            -- the component would be a single dot
            refine absurd ?_ hhere
            have hc : c = dot := Option.some.inj hdot
            rw [← List.reverse_reverse name, hrev, hc]
            rfl
          | cons e front =>
            obtain rfl := Option.some.inj hd
            exact Or.inr (hmem e (List.mem_cons_of_mem _ List.mem_cons_self))
        · exact isChain_append_of_not_mem
            (fun hb => hmem _ (List.mem_cons_of_mem _ hb) rfl) h.kept_single
      · refine List.isChain_cons.mpr ⟨fun d hd => ?_, ?_⟩
        · obtain rfl := Option.some.inj hd
          exact Or.inr (hmem c List.mem_cons_self)
        · exact isChain_append_of_not_mem (fun hb => hmem _ hb rfl) h.kept_single

/-- The loop keeps some of the characters in their order, and no two backslashes in a row. -/
theorem collapseLoop_neat {fuel : ℕ} {result : List WChar} (h : Neat kept rest)
    (hloop : collapseLoop fuel kept rest = some result) :
    result.IsChain Single ∧ result.reverse.Sublist (kept.reverse ++ rest) := by
  induction fuel generalizing kept rest with
  | zero =>
    cases rest with
    | nil =>
      obtain rfl := Option.some.inj hloop
      rw [List.append_nil]
      exact ⟨h.kept_single, List.Sublist.refl _⟩
    | cons c rest => exact nomatch hloop
  | succ fuel ih =>
    rw [collapseLoop_succ] at hloop
    have hsub := collapseStep_sublist kept rest
    obtain ⟨name, hname, heq | ⟨next, heq⟩⟩ := split_name rest
    · rw [heq] at h hloop hsub ⊢
      have hsnd : (collapseStep kept name).2 = [] := by rw [collapseStep_last hname]
      rw [hsnd, collapseLoop_nil] at hloop
      obtain rfl := Option.some.inj hloop
      rw [hsnd, List.append_nil] at hsub
      exact ⟨h.final hname, hsub⟩
    · rw [heq] at h hloop hsub ⊢
      have hsnd : (collapseStep kept (name ++ backslash :: next)).2 = next := by
        rw [collapseStep_append hname]
      rw [hsnd] at hloop hsub
      obtain ⟨hsingle, hrest⟩ := ih (h.step hname) hloop
      exact ⟨hsingle, hrest.trans hsub⟩

theorem dedup_spec (h : mark ≤ path.length) : (dedup path mark).take mark = path.take mark ∧
    (dedup path mark).Sublist path ∧ ((dedup path mark).drop mark).IsChain Single := by
  cases path with
  | nil =>
    obtain rfl := Nat.le_zero.mp h
    exact ⟨rfl, List.Sublist.refl _, List.IsChain.nil⟩
  | cons c rest =>
    obtain ⟨front, hfront⟩ : ∃ l, (c :: rest).take (max 1 mark) = l := ⟨_, rfl⟩
    have hlen : front.length = min (max 1 mark) (rest.length + 1) := by
      rw [← hfront, List.length_take, List.length_cons]
    have hne : front ≠ [] := fun hnil => by
      rw [hnil, List.length_nil] at hlen
      omega
    rw [List.length_cons] at h
    have hlast : front.getLast? = some (front.getLast hne) := List.getLast?_eq_some_getLast hne
    have hdedup : dedup (c :: rest) mark =
        front ++ dedupFrom (front.getLast hne) ((c :: rest).drop (max 1 mark)) := by
      rw [dedup, hfront, hlast]
    have hsplit : front ++ (c :: rest).drop (max 1 mark) = c :: rest := by
      rw [← hfront]
      exact List.take_append_drop _ _
    rw [hdedup]
    refine ⟨?_, ?_, ?_⟩
    · rw [List.take_append_of_le_length (by omega), ← hfront, List.take_take,
        Nat.min_eq_left (Nat.le_max_right 1 mark)]
    · have hsub := List.Sublist.append (List.Sublist.refl front)
        (dedupFrom_sublist (front.getLast hne) ((c :: rest).drop (max 1 mark)))
      rw [hsplit] at hsub
      exact hsub
    · have hchain := dedupFrom_single (front.getLast hne) ((c :: rest).drop (max 1 mark))
      cases mark with
      | zero =>
        obtain rfl : front = [c] := hfront.symm
        exact hchain
      | succ m =>
        have hm : front.length = m + 1 := by omega
        rw [List.drop_left' hm]
        exact hchain.tail

theorem toBackslash_ne_slash : toBackslash c ≠ slash := by
  rw [toBackslash]
  split
  · decide
  · next h => exact h

/-- A directory `...` that no `..` takes back stands before another component. -/
def DotsStay (path : List WChar) (mark : ℕ) : Prop :=
  ∃ before behind, components ((dedup (path.map toBackslash) mark).drop mark) =
    before ++ threeDots :: behind ∧ Stays here up 1 behind

theorem plain_components : Plain (components path) := by
  obtain ⟨n, hn⟩ : ∃ n, path.length ≤ n := ⟨_, Nat.le_refl _⟩
  induction n generalizing path with
  | zero =>
    obtain rfl := List.length_eq_zero_iff.mp (Nat.le_zero.mp hn)
    exact fun name hname => List.mem_singleton.mp hname ▸ List.not_mem_nil
  | succ n ih =>
    obtain ⟨name, hname, heq | ⟨next, heq⟩⟩ := split_name path
    · rw [heq, components_name hname]
      exact fun m hm => List.mem_singleton.mp hm ▸ hname
    · rw [heq, List.length_append, List.length_cons] at hn
      rw [heq, components_append hname]
      intro m hm
      rcases List.mem_cons.mp hm with rfl | hm
      · exact hname
      · exact ih (by omega) m hm

/-- The loop ends. It leaves out characters behind the mark only, and the components that stay are the
names on the stack. -/
theorem collapsePath_spec {fuel : ℕ} (hmark : mark ≤ path.length) (hfuel : path.length ≤ fuel) :
    ∃ kept, collapsePath fuel path mark =
        some ((dedup (path.map toBackslash) mark).take mark ++ (trim kept).reverse) ∧
      (trim kept).reverse.Sublist ((dedup (path.map toBackslash) mark).drop mark) ∧
      kept.IsChain Single ∧
      trim kept = trimmed
        ((components ((dedup (path.map toBackslash) mark).drop mark)).foldl (visit here up) []) := by
  have hmark' : mark ≤ (path.map toBackslash).length := by rwa [List.length_map]
  obtain ⟨-, hsub, hsingle⟩ := dedup_spec hmark'
  obtain ⟨path', hpath'⟩ : ∃ p, dedup (path.map toBackslash) mark = p := ⟨_, rfl⟩
  rw [hpath'] at hsub hsingle ⊢
  have hlen := hsub.length_le
  rw [List.length_map] at hlen
  have hfuel' : (path'.drop mark).length ≤ fuel := by
    rw [List.length_drop]
    omega
  have hnil : Plain [] := fun _ h => absurd h List.not_mem_nil
  obtain ⟨kept, hloop, htrim⟩ := collapseLoop_spec hnil hfuel'
  have hneat : Neat [] (path'.drop mark) := ⟨List.IsChain.nil, hsingle, Or.inl rfl⟩
  obtain ⟨hkept, hkeptsub⟩ := collapseLoop_neat hneat hloop
  rw [List.reverse_nil, List.nil_append] at hkeptsub
  refine ⟨kept, ?_, trim_suffix.sublist.reverse.trans hkeptsub, hkept, htrim⟩
  rw [collapsePath, hpath']
  rw [show collapseLoop fuel [] (path'.drop mark) = some kept from hloop]
  rfl

theorem length_take_dedup (hmark : mark ≤ path.length) :
    ((dedup (path.map toBackslash) mark).take mark).length = mark := by
  have hmark' : mark ≤ (path.map toBackslash).length := by rwa [List.length_map]
  rw [(dedup_spec hmark').1, List.length_take]
  exact Nat.min_eq_left hmark'

theorem length_collapsed {rest : List WChar} (hmark : mark ≤ path.length)
    (hrest : rest.Sublist ((dedup (path.map toBackslash) mark).drop mark)) :
    ((dedup (path.map toBackslash) mark).take mark ++ rest).length ≤ path.length := by
  have hmark' : mark ≤ (path.map toBackslash).length := by rwa [List.length_map]
  have hsub := (dedup_spec hmark').2.1
  have hall := (List.Sublist.refl ((dedup (path.map toBackslash) mark).take mark)).append hrest
  rw [List.take_append_drop] at hall
  calc ((dedup (path.map toBackslash) mark).take mark ++ rest).length
      ≤ (path.map toBackslash).length := (hall.trans hsub).length_le
    _ = path.length := List.length_map _

/-- The path gets no longer, and what is before the mark stays. -/
theorem collapsePath_length (hmark : mark ≤ path.length) : ∃ result,
    collapsePath path.length path mark = some result ∧ mark ≤ result.length ∧
      result.length ≤ path.length := by
  obtain ⟨kept, hresult, hsub, -⟩ := collapsePath_spec hmark (Nat.le_refl path.length)
  refine ⟨_, hresult, ?_, length_collapsed hmark hsub⟩
  rw [List.length_append, length_take_dedup hmark]
  exact Nat.le_add_right _ _

/-- The loop ends, and nothing to traverse is left unless a directory `...` becomes a `..`. -/
theorem collapsePath_collapsed_iff (path : List WChar) (mark fuel : ℕ) (hmark : mark ≤ path.length)
    (hfuel : path.length ≤ fuel) : ∃ result, collapsePath fuel path mark = some result ∧
      (Collapsed path mark result ↔ ¬DotsStay path mark) := by
  obtain ⟨kept, hloop, htrimsub, hkept, htrim⟩ := collapsePath_spec hmark hfuel
  have hfront := length_take_dedup hmark
  have hlength := length_collapsed hmark htrimsub
  have hmark' : mark ≤ (path.map toBackslash).length := by rwa [List.length_map]
  obtain ⟨htake, hsub, -⟩ := dedup_spec hmark'
  refine ⟨_, hloop, ?_⟩
  obtain ⟨path', hpath'⟩ : ∃ p, dedup (path.map toBackslash) mark = p := ⟨_, rfl⟩
  rw [hpath'] at htake hsub htrimsub htrim hfront hlength ⊢
  have hresult : (path'.take mark ++ (trim kept).reverse).drop mark = (trim kept).reverse :=
    List.drop_left' hfront
  obtain ⟨stack, hstack⟩ : ∃ s, (components (path'.drop mark)).foldl (visit here up) [] = s := ⟨_, rfl⟩
  rw [hstack] at htrim
  have hmem : ∀ name ∈ stack, backslash ∉ name ∧ Proper here up name := by
    intro name hname
    rw [← hstack] at hname
    rcases mem_foldl_visit hname with h | ⟨h, hproper⟩
    · exact absurd h List.not_mem_nil
    · exact ⟨plain_components name h, hproper⟩
  obtain ⟨hhere, hup⟩ := trimmed_components (fun n hn => (hmem n hn).1) fun n hn => (hmem n hn).2
  have hdots : threeDots ∈ stack.tail ↔ DotsStay path mark := by
    rw [DotsStay, hpath', ← hstack, ← List.drop_one]
    exact mem_drop_visit_iff here_ne_up ⟨by decide, by decide⟩
  rw [← htrim] at hhere hup
  rw [hdots] at hup
  constructor
  · intro h hstay
    have hno := h.no_up
    rw [hresult] at hno
    exact hno (hup.mpr hstay)
  · intro hstay
    refine ⟨hlength, ?_, ?_, ?_, ?_, ?_⟩
    · rw [List.take_left' hfront, htake, List.map_take]
    · rw [hresult]
      intro hslash
      have hin := hsub.subset ((List.drop_sublist mark path').subset (htrimsub.subset hslash))
      obtain ⟨c, -, hc⟩ := List.mem_map.mp hin
      exact toBackslash_ne_slash hc
    · rw [hresult]
      intro hinfix
      have hchain : (trim kept).reverse.IsChain Single := by
        rw [List.isChain_reverse]
        exact (hkept.suffix trim_suffix).imp fun _ _ h => h.symm
      have hpair := List.isChain_pair.mp ( List.IsChain.infix hchain hinfix)
      exact hpair.elim (fun h => h rfl) fun h => h rfl
    · rw [hresult]
      exact hhere
    · rw [hresult]
      exact fun hmem => hstay (hup.mp hmem)

section Samples

/-- A drive, a directory and a file. -/
def drivePath (name : String) : List WChar := wide "C:\\" ++ wide name ++ wide "/foo"

theorem collapsePath_collapsed_sample : ∃ result,
    collapsePath 14 (drivePath "a/./..") 3 = some result ∧ Collapsed (drivePath "a/./..") 3 result := by
  obtain ⟨result, hresult, hiff⟩ :=
    collapsePath_collapsed_iff (drivePath "a/./..") 3 14 (by decide) (by decide)
  refine ⟨result, hresult, hiff.mpr ?_⟩
  rintro ⟨before, behind, heq, -⟩
  have hmem : threeDots ∈ before ++ threeDots :: behind :=
    List.mem_append_right _ List.mem_cons_self
  rw [← heq] at hmem
  exact absurd hmem (by decide)

/-- The directory `...` is shown as `..`. -/
theorem not_collapsePath_collapsed_dots :
    collapsePath 10 (drivePath "...") 3 = some (wide "C:\\..\\foo") ∧
      ¬Collapsed (drivePath "...") 3 (wide "C:\\..\\foo") :=
  ⟨by decide, fun h => absurd h.no_up (by decide)⟩

end Samples

end Wine.Paths

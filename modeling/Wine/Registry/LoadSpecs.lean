import Wine.Registry.Creation
import Wine.Registry.ValueSpecs
import Wine.Registry.Requests

/-!
# What a load keeps

A load keeps what single requests keep, on two conditions on the lines it reaches: that no section
line leads to a volatile key and on below it, and that no value line inserts a value that then stays
without data. `LoadEach` says that something holds at each line that is reached.
-/

namespace Wine.Registry
open Wine.Lib

variable {cm : CaseMap} {h q : Prop} {r : Tree} {k : ℕ}

/-! ## Computations that leave the tree alone -/

/-- A computation that does nothing but allocate. -/
def Silent {α : Type} (m : M α) : Prop :=
  ∀ s, wp m (fun _ s' => s'.toTree = s.toTree ∧ s'.grants = s.grants) NotEndless s

namespace Silent
variable {α β : Type} {m : M α} {f : α → M β}

theorem pure (a : α) : Silent (Pure.pure a : M α) := fun _ => ⟨rfl, rfl⟩

theorem bind (hm : Silent m) (hf : ∀ a, Silent (f a)) : Silent (m >>= f) := by
  intro s
  rw [wp_bind]
  refine wp_mono (hm s) ?_
  rintro a s₁ ⟨ht, hg⟩
  refine wp_mono (hf a s₁) ?_
  rintro b s₂ ⟨ht', hg'⟩
  exact ⟨ht'.trans ht, hg'.trans hg⟩

theorem memAlloc : Silent memAlloc := fun _ => wp_memAlloc fun _ _ h => ⟨h.tree, h.grants⟩

theorem memdup (l : List α) : Silent (memdup l) := fun _ => wp_memdup fun _ _ h => ⟨h.tree, h.grants⟩

theorem ite {c : Prop} [Decidable c] {m m' : M α} (hm : Silent m) (hm' : Silent m') :
    Silent (if c then m else m') := by
  by_cases hc : c
  · simpa only [hc, if_true] using hm
  · simpa only [hc, if_false] using hm'

end Silent

theorem hexChunk_silent (buffer : List Byte) : Silent (hexChunk buffer) := by
  unfold hexChunk
  refine Silent.memAlloc.bind fun _ => .ite ?_ (.pure _)
  cases parseHex (1 + strlen buffer / 3) buffer with
  | none => exact .pure _
  | some p => exact .pure _

theorem readHex_silent (input : List Input) (data buffer : List Byte) :
    Silent (readHex input data buffer) := by
  induction input generalizing data buffer with
  | nil =>
    unfold readHex
    refine (hexChunk_silent _).bind fun c => ?_
    cases c with
    | none => exact .pure _
    | some p => exact .ite (.pure _) (.ite (.pure _) (.pure _))
  | cons i input ih =>
    unfold readHex
    refine (hexChunk_silent _).bind fun c => ?_
    cases c with
    | none => exact .pure _
    | some p =>
      refine .ite (.pure _) (.ite (.pure _) ?_)
      cases i with
      | line l => exact ih _ _
      | failure => exact .pure _

theorem readData_silent (buffer : List Byte) (input : List Input) : Silent (readData buffer input) := by
  unfold readData
  cases getDataType buffer with
  | none => exact .pure _
  | some t =>
    obtain ⟨type, parseType, rest⟩ := t
    cases parseType with
    | sz =>
      refine Silent.memAlloc.bind fun _ => .ite ?_ (.pure _)
      cases parseStrW (2 * strlen rest) rest (ascii '"') with
      | none => exact .pure _
      | some p => exact (Silent.memdup _).bind fun _ => .ite (.pure _) (.pure _)
    | dword => exact (Silent.memdup _).bind fun _ => .ite (.pure _) (.pure _)
    | binary =>
      refine (readHex_silent _ _ _).bind ?_
      rintro ⟨data, rest⟩
      cases data with
      | none => exact .pure _
      | some data => exact (Silent.memdup _).bind fun _ => .ite (.pure _) (.pure _)

/-! ## The prefix of the paths -/

theorem wp_prefixUp {name : List WChar} {fuel : ℕ} {res : ℤ} {s : State} (hr : s.toTree.Linked cm)
    (hfuel : k < fuel) :
    wp (prefixUp cm name fuel res k) (fun _ s' => s' = s) NotEndless s := by
  induction fuel generalizing k res with
  | zero => omega
  | succ fuel ih =>
    unfold prefixUp
    rw [wp_ite]
    refine ⟨fun _ => rfl, fun _ => ?_⟩
    rw [wp_bind]
    refine wp_getKey fun key hkey => ?_
    rw [wp_ite]
    refine ⟨fun _ => rfl, fun _ => ?_⟩
    cases hp : key.parent with
    | none => exact fun hn => (by cases hn)
    | some p =>
      have hlt := (hr.parent k key p hkey hp).1
      exact ih (by omega)

theorem wp_getPrefixLen {name : List Byte} {s : State} (hr : s.toTree.Linked cm)
    (hk : s.keys k ≠ none) :
    wp (getPrefixLen cm k name) (fun _ s' => s'.toTree = s.toTree ∧ s'.grants = s.grants) NotEndless
      s := by
  obtain ⟨key, hkey⟩ := Option.ne_none_iff_exists'.mp hk
  unfold getPrefixLen
  simp only [wp_bind]
  refine wp_memAlloc fun b s₁ h₁ => ?_
  simp only [wp_ite, wp_pure]
  refine ⟨fun _ => ?_, fun _ => ⟨h₁.tree, h₁.grants⟩⟩
  cases parseStrW (2 * strlen name) name (ascii ']') with
  | none => exact ⟨h₁.tree, h₁.grants⟩
  | some p =>
    simp only [wp_bind, wp_get]
    have hr₁ : s₁.toTree.Linked cm := by rw [h₁.tree]; exact hr
    refine wp_mono (wp_prefixUp hr₁ (by rw [h₁.tree]; exact hr.lt hkey)) ?_
    rintro _ s₂ rfl
    exact ⟨h₁.tree, h₁.grants⟩

/-! ## Sections -/

theorem parseLoop_length {endchar : Byte} {fuel room : ℕ} {p rest : List Byte} {name : List WChar}
    (hp : parseLoop endchar fuel room p = some (name, rest)) : name.length ≤ fuel := by
  induction fuel generalizing room p rest name with
  | zero => cases hp
  | succ fuel ih =>
    unfold parseLoop at hp
    by_cases h0 : peek p = 0
    · rw [if_pos h0] at hp
      cases hp
    · rw [if_neg h0] at hp
      by_cases he : peek p = endchar
      · rw [if_pos he, Option.some.injEq, Prod.mk.injEq] at hp
        rw [← hp.1]
        exact Nat.zero_le _
      · rw [if_neg he] at hp
        by_cases hr : room < 2
        · rw [if_pos hr] at hp
          cases hp
        · rw [if_neg hr, Option.map_eq_some_iff] at hp
          obtain ⟨⟨name', rest'⟩, hp', heq⟩ := hp
          rw [Prod.mk.injEq] at heq
          have hle := ih hp'
          rw [← heq.1, List.length_cons]
          exact Nat.succ_le_succ hle

theorem parseStrW_length {len : ℕ} {src rest : List Byte} {endchar : Byte} {name : List WChar}
    (hp : parseStrW len src endchar = some (name, rest)) : name.length ≤ src.length :=
  parseLoop_length hp

theorem dropPrefix_suffix (n : ℤ) (p : List WChar) : (dropPrefix n p).2 <:+ p := by
  induction p generalizing n with
  | nil => exact List.suffix_refl _
  | cons c p ih =>
    unfold dropPrefix
    by_cases hc : n = 0 ∨ c = 0
    · simp only [if_pos hc, List.suffix_refl]
    · simp only [if_neg hc]
      exact (ih _).trans (List.suffix_cons c p)

/-- A section that leads from a key that is not volatile through a volatile one. -/
def SectionBelowVolatile (cm : CaseMap) (r : Tree) (base : ℕ) (buffer : List Byte) (flags : KeyFlags)
    (prefixLen : ℤ) : Prop :=
  ∃ name rest, parseStrW (2 * strlen buffer) buffer (ascii ']') = some (name, rest) ∧
    (dropPrefix prefixLen name).2.headD 0 ≠ 0 ∧
      r.BelowVolatile cm base (dropPrefix prefixLen name).2 flags

theorem wp_loadKey {s : State} {buffer : List Byte} {flags : KeyFlags} {prefixLen modif : ℤ}
    (hk : Keeps cm h q r s.toTree) (hlen : buffer.length < maxPathLen) (hdel : flags.deleted = false)
    (hh : h → ¬ SectionBelowVolatile cm s.toTree k buffer flags prefixLen)
    (hq : q → flags.volatile = true ∨ flags.dirty = true) :
    wp (loadKey cm k buffer flags prefixLen modif) (fun _ s' => Keeps cm h q r s'.toTree ∧
      s.toTree.Kept (fun _ => False) (flags.volatile = true) s'.toTree) NotEndless s := by
  unfold loadKey
  rw [wp_bind]
  refine wp_memAlloc fun b s₁ h₁ => ?_
  rw [wp_ite]
  refine ⟨fun _ => ?_, fun _ => by rw [wp_pure, h₁.tree]; exact ⟨hk, .refl _ _ _⟩⟩
  cases hp : parseStrW (2 * strlen buffer) buffer (ascii ']') with
  | none =>
    rw [wp_pure, h₁.tree]
    exact ⟨hk, .refl _ _ _⟩
  | some p =>
    obtain ⟨name, rest⟩ := p
    simp only [wp_ite, wp_pure, h₁.tree]
    refine ⟨fun _ => ⟨fun _ => ⟨hk, .refl _ _ _⟩, fun _ => ⟨hk, .refl _ _ _⟩⟩, fun hne => ?_⟩
    have hlen' : (dropPrefix prefixLen name).2.length < maxPathLen :=
      Nat.lt_of_le_of_lt (Nat.le_trans (dropPrefix_suffix _ _).length_le (parseStrW_length hp)) hlen
    refine wp_mono (wp_createKey (h₁.tree ▸ hk) hlen' hdel (fun hhp hb => ?_) hq) ?_
    · exact hh hhp ⟨name, rest, hp, hne, h₁.tree ▸ hb⟩
    · rintro c s₂ hc
      exact ⟨hc.keeps, h₁.tree ▸ hc.kept⟩

/-! ## Values -/

/-- A value line that inserts a value into a clean key and then fails to give it data. -/
def LosesValue (cm : CaseMap) (k : ℕ) (buffer : List Byte) (input : List Input) (s : State) : Prop :=
  ∃ key name rest i s₁ input' s₂, s.keys k = some key ∧ key.flags.volatile = false ∧
    key.flags.dirty = false ∧ parseName buffer = some (name, rest) ∧
      findValue cm key name = .missing i ∧
        parseValueName cm k buffer s = .ok (some (i, rest), s₁) ∧
          readData rest input s₁ = .ok ((none, input'), s₂)

/-- The result of `parse_value_name`. -/
structure Named (cm : CaseMap) (h q : Prop) (r : Tree) (k : ℕ) (buffer : List Byte) (s : State)
    (c : Option (ℕ × List Byte)) (s' : State) : Prop where
  failed : c = none → Keeps cm h q r s'.toTree
  done : KeepsBut cm (· = k) h q r s'.toTree
  kept : s.toTree.Kept (· = k) False s'.toTree
  grants : s'.grants = s.grants
  value : ∀ i rest, c = some (i, rest) → ∃ key key' name, s.keys k = some key ∧
    s'.keys k = some key' ∧ parseName buffer = some (name, rest) ∧
      (findValue cm key name = .found i ∧ s'.toTree = s.toTree ∨
        findValue cm key name = .missing i ∧ key'.flags = key.flags ∧
          ∃ v, v.name = name ∧ key'.values = key.values.insertIdx i v)

theorem wp_parseValueName {s : State} {buffer : List Byte} (hk : Keeps cm h q r s.toTree) :
    wp (parseValueName cm k buffer) (Named cm h q r k buffer s) NotEndless s := by
  have hsame : ∀ s' : State, s'.toTree = s.toTree → s'.grants = s.grants →
      Named cm h q r k buffer s none s' := by
    intro s' ht hg
    exact ⟨fun _ => ht ▸ hk, ht ▸ hk.but _, ht ▸ .refl _ _ _, hg, fun i rest hc => (by cases hc)⟩
  unfold parseValueName
  rw [wp_bind]
  refine wp_memAlloc fun b s₁ h₁ => ?_
  rw [wp_ite]
  refine ⟨fun _ => ?_, fun _ => hsame s₁ h₁.tree h₁.grants⟩
  cases hp : parseName buffer with
  | none => exact hsame s₁ h₁.tree h₁.grants
  | some p =>
    obtain ⟨name, rest⟩ := p
    simp only [wp_bind]
    refine wp_getKey fun key hkey => ?_
    have hkey' : s.keys k = some key := h₁.tree ▸ hkey
    cases hf : findValue cm key name with
    | found i =>
      refine ⟨fun hc => (by cases hc), h₁.tree ▸ hk.but _, h₁.tree ▸ .refl _ _ _, h₁.grants,
        fun i' rest' hc => ?_⟩
      rw [Option.some.injEq, Prod.mk.injEq] at hc
      obtain ⟨rfl, rfl⟩ := hc
      exact ⟨key, key, name, hkey', hkey, hp, .inl ⟨hf, h₁.tree⟩⟩
    | missing i =>
      simp only [wp_bind]
      refine wp_mono (wp_insertValue (h₁.tree ▸ hk) hkey hf) ?_
      rintro b s₂ ⟨hins, hkept, hg, -⟩
      rw [h₁.tree] at hkept
      cases b with
      | false =>
        exact ⟨fun _ => hins.failed rfl, hins.done, hkept, hg.trans h₁.grants,
          fun i rest hc => (by cases hc)⟩
      | true =>
        obtain ⟨key', v, hkey₂, hfl, hv, hval⟩ := hins.value rfl
        refine ⟨fun hc => (by cases hc), hins.done, hkept, hg.trans h₁.grants, fun i' rest' hc => ?_⟩
        rw [Option.some.injEq, Prod.mk.injEq] at hc
        obtain ⟨rfl, rfl⟩ := hc
        exact ⟨key, key', name, hkey', hkey₂, hp, .inr ⟨hf, hfl, v, hv, hval⟩⟩

/-- A key that was marked, or whose change does not count, is no exception. -/
theorem KeepsBut.settle {r' : Tree} (hk : KeepsBut cm (· = k) h q r r')
    (hm : q → ∀ key', r'.keys k = some key' → key'.flags.volatile = false →
      key'.flags.dirty = false → False) : Keeps cm h q r r' where
  wf := hk.wf
  dirtyUp := hk.dirtyUp
  older := hk.older
  heredity := hk.heredity
  quiet hq := by
    refine ⟨fun i key' _ hi hv hd => (hk.quiet hq).same i key' (fun he => ?_) hi hv hd⟩
    subst he
    exact hm hq key' hi hv hd

theorem wp_loadValue {s : State} {buffer : List Byte} {input : List Input}
    (hk : Keeps cm h q r s.toTree) (hq : q → ¬ LosesValue cm k buffer input s) :
    wp (loadValue cm k buffer input) (fun _ s' => Keeps cm h q r s'.toTree ∧
      s.toTree.Kept (· = k) False s'.toTree) NotEndless s := by
  unfold loadValue
  rw [wp_bind]
  refine wp_mono_ok (wp_parseValueName hk) ?_
  intro c s₁ hok hn
  cases c with
  | none => exact ⟨hn.failed rfl, hn.kept⟩
  | some p =>
    obtain ⟨i, rest⟩ := p
    obtain ⟨key, key', name, hkey, hkey', hp, hor⟩ := hn.value i rest rfl
    simp only [wp_bind]
    refine wp_mono_ok (readData_silent rest input s₁) ?_
    rintro ⟨data, input'⟩ s₂ hok₂ ⟨ht, -⟩
    cases data with
    | none =>
      simp only [wp_pure, ht]
      refine ⟨?_, hn.kept⟩
      rcases hor with ⟨-, hsame⟩ | ⟨hf, hfl, -⟩
      · rw [hsame]
        exact hk
      · refine hn.done.settle fun hqq key'' hk'' hv hd => hq hqq ?_
        obtain rfl := Option.some.inj (hkey'.symm.trans hk'')
        exact ⟨key, name, rest, i, s₁, input', s₂, hkey, hfl ▸ hv, hfl ▸ hd, hp, hf, hok, hok₂⟩
    | some data =>
      simp only [wp_bind]
      refine wp_mono (wp_storeValue (ht ▸ hn.done) (ht ▸ hkey')) ?_
      rintro _ s₃ ⟨hk₃, hkept, -, key₃, hkey₃, -⟩
      rw [ht] at hkept
      refine wp_mono (wp_makeDirty hk₃.inv hkey₃) ?_
      rintro _ s₄ ⟨hr, hd, hm, -⟩
      simp only [wp_pure]
      exact ⟨hk₃.marked hr hd hm, (hn.kept.trans hkept).trans (hr.kept _ _)⟩

/-! ## Lines -/

def Line.start (l : Line) : List Byte := l.bytes.dropWhile isspace

/-- A section line that leads through a volatile key. -/
def LineBelowVolatile (cm : CaseMap) (base : ℕ) (flags : KeyFlags) (l : Line) (ld : Loader)
    (s : State) : Prop :=
  peek l.start = ascii '[' ∧ ∃ prefixLen s₁,
    (if ld.prefixLen = -1 then getPrefixLen cm base (l.start.drop 1) else pure ld.prefixLen) s =
      .ok (prefixLen, s₁) ∧
        SectionBelowVolatile cm s.toTree base (l.start.drop 1) flags prefixLen

/-- A value line whose value stays without data. -/
def LineLosesValue (cm : CaseMap) (l : Line) (ld : Loader) (s : State) : Prop :=
  ∃ k, ld.subkey = some k ∧ (peek l.start = ascii '@' ∨ peek l.start = ascii '"') ∧
    LosesValue cm k l.start ld.input s

theorem wp_loadLine {s : State} {base : ℕ} {key : Key} {flags : KeyFlags} {modif : ℤ} {l : Line}
    {ld : Loader} (hk : Keeps cm h q r s.toTree) (hkey : s.keys base = some key)
    (hdel : flags.deleted = false) (hf : flags.volatile = true ∨ flags.dirty = true)
    (hh : h → ¬ LineBelowVolatile cm base flags l ld s) (hq : q → ¬ LineLosesValue cm l ld s) :
    wp (loadLine cm base flags modif l ld) (fun _ s' => Keeps cm h q r s'.toTree ∧
      s.toTree.Kept (fun _ => True) (flags.volatile = true) s'.toTree) NotEndless s := by
  have hlen : (l.start.drop 1).length < maxPathLen :=
    Nat.lt_of_le_of_lt (Nat.le_trans (List.drop_suffix _ _).length_le
      (List.dropWhile_suffix _).length_le) l.short
  unfold loadLine
  change wp (if peek l.start = ascii '[' then _ else _) _ _ _
  rw [wp_ite]
  refine ⟨fun hb => ?_, fun _ => ?_⟩
  · -- the prefix length is known or is detected first
    have hpre : wp (if ld.prefixLen = -1 then getPrefixLen cm base (l.start.drop 1)
        else pure ld.prefixLen) (fun _ s' => s'.toTree = s.toTree ∧ s'.grants = s.grants) NotEndless
        s := by
      rw [wp_ite]
      have hne : s.keys base ≠ none := fun hn => (by cases hkey.symm.trans hn)
      exact ⟨fun _ => wp_getPrefixLen hk.wf.toLinked hne, fun _ => ⟨rfl, rfl⟩⟩
    have hafter : ∀ prefixLen s₁,
        (if ld.prefixLen = -1 then getPrefixLen cm base (l.start.drop 1) else pure ld.prefixLen) s =
          .ok (prefixLen, s₁) → s₁.toTree = s.toTree ∧ s₁.grants = s.grants →
            wp (loadKey cm base (l.start.drop 1) flags prefixLen modif) (fun _ s' =>
              Keeps cm h q r s'.toTree ∧ s.toTree.Kept (fun _ => True)
                (flags.volatile = true) s'.toTree) NotEndless s₁ := by
      intro prefixLen s₁ hok ht
      refine wp_mono (wp_loadKey (ht.1 ▸ hk) hlen hdel (fun hhp hs => ?_) fun _ => hf) ?_
      · exact hh hhp ⟨hb, prefixLen, s₁, hok, ht.1 ▸ hs⟩
      · rintro c s₂ ⟨hk₂, hkept⟩
        rw [ht.1] at hkept
        exact ⟨hk₂, hkept.weaken (fun _ hf => hf.elim) id⟩
    have hall := wp_mono_ok hpre hafter
    rw [← wp_bind] at hall
    by_cases hp : ld.prefixLen = -1
    · simp only [hp, if_true] at hall ⊢
      simpa only [wp_bind, wp_pure, Line.start] using hall
    · simp only [hp, if_false] at hall ⊢
      simpa only [wp_bind, wp_pure, Line.start] using hall
  · rw [wp_ite]
    refine ⟨fun hb => ?_, fun _ => ⟨hk, .refl _ _ _⟩⟩
    cases hsub : ld.subkey with
    | none => exact ⟨hk, .refl _ _ _⟩
    | some k =>
      simp only [wp_bind]
      refine wp_mono (wp_loadValue hk fun hqq hl => hq hqq ⟨k, hsub, hb, hl⟩) ?_
      rintro input s₁ ⟨hk₁, hkept⟩
      exact ⟨hk₁, hkept.weaken (fun _ _ => trivial) False.elim⟩

end Wine.Registry

import Wine.Libwine.Utf8RoundTrip

/-!
# Length queries

A length query counts the characters that the converter stores, and so a destination of that many
characters is enough, unless the input ends inside a sequence: then the converter has bytes left when
the destination is full.
-/

namespace Wine.Utf8

/-- What is left behind the first character, unless the input ends inside it. -/
def nextChar : List Byte → Option (List Byte)
  | [] => none
  | ch :: src => if ch < 0xc0 then some src else skipSequence ch src

/-- The input ends inside a sequence. -/
inductive Cut : List Byte → Prop
  | inside {src : List Byte} (hne : src ≠ []) (h : nextChar src = none) : Cut src
  | behind {src rest : List Byte} (h : nextChar src = some rest) (hcut : Cut rest) : Cut src

/-- With the length that a query has returned the conversion succeeds, and with less it fails without
a store behind the destination. -/
def Queried {α : Type} (convert : ℕ → Conversion α) (n : ℤ) : Prop := 0 < n →
  (convert n.toNat).ret = n ∧ (convert n.toNat).dst.length = n.toNat ∧
    ∀ dstlen : ℕ, 0 < dstlen → dstlen < n →
      (convert dstlen).ret = -1 ∧ (convert dstlen).dst.length ≤ dstlen

variable {ch b : Byte} {src rest : List Byte} {dst : List WChar}

/-! ## UTF-8 to wide characters -/

/-- Where a sequence ends does not depend on the value read so far. -/
theorem readTrail_shape (len : ℕ) (res res' : BitVec 32) (src : List Byte) :
    (∃ v rest, readTrail len res src = .finished v rest ∧
      ∃ v', readTrail len res' src = .finished v' rest) ∨
    (∃ rest, readTrail len res src = .bad rest ∧ readTrail len res' src = .bad rest) ∨
    (readTrail len res src = .ended ∧ readTrail len res' src = .ended) := by
  induction len generalizing res res' src with
  | zero => exact .inl ⟨res, src, rfl, res', rfl⟩
  | succ len ih =>
    cases src with
    | nil => exact .inr (.inr ⟨rfl, rfl⟩)
    | cons b src =>
      rw [readTrail, readTrail]
      by_cases hbad : 0x40 ≤ b ^^^ 0x80
      · rw [if_pos hbad, if_pos hbad]
        exact .inr (.inl ⟨b :: src, rfl, rfl⟩)
      · rw [if_neg hbad, if_neg hbad]
        exact ih _ _ src

theorem readTrail_length (len : ℕ) (res : BitVec 32) (src : List Byte) :
    ∀ v rest, (readTrail len res src = .finished v rest ∨ readTrail len res src = .bad rest) →
      rest.length ≤ src.length := by
  induction len generalizing res src with
  | zero =>
    intro v rest h
    rcases h with h | h
    · rw [readTrail, Trail.finished.injEq] at h
      rw [h.2]
    · cases h
  | succ len ih =>
    intro v rest h
    cases src with
    | nil => rcases h with h | h <;> cases h
    | cons b src =>
      rw [readTrail] at h
      split at h
      · rcases h with h | h
        · cases h
        · rw [Trail.bad.injEq] at h
          rw [h]
      · exact Nat.le_succ_of_le (ih _ src v rest h)

theorem nextChar_length (h : nextChar (ch :: src) = some rest) : rest.length ≤ src.length := by
  rw [nextChar] at h
  split at h
  · exact Option.some.inj h ▸ Nat.le_refl _
  · rw [skipSequence] at h
    split at h
    · next v rest' heq =>
      exact Option.some.inj h ▸ readTrail_length _ _ _ v rest' (.inl heq)
    · next rest' heq =>
      exact Option.some.inj h ▸ readTrail_length _ _ _ 0 rest' (.inr heq)
    · cases h

theorem getLengthLoop_cons (n : ℕ) : getLengthLoop (n + 1) (ch :: src) =
    match nextChar (ch :: src) with
    | some rest => getLengthLoop n rest + 1
    | none => 0 := by
  rw [getLengthLoop, nextChar]
  split <;> rfl

theorem getLengthLoop_nil (n : ℕ) : getLengthLoop n [] = 0 := by
  cases n <;> rfl

/-- The first bytes that are skipped alone stand for no sequence. -/
theorem utf8Length_of_lt (b : Byte) : b < 0xc0 → utf8Length b = 0 ∨ b < 0x80 := by
  revert b
  decide +kernel

theorem utf8Length_ascii (b : Byte) : b < 0x80 → b < 0xc0 := by
  rw [BitVec.lt_def, BitVec.lt_def]
  exact fun h => Nat.lt_trans h (by decide)

/-- The converter reads the sequence that the query skips. -/
theorem readSequence_shape (src : List Byte) (hch : ¬ch < 0x80) :
    (∃ rest, nextChar (ch :: src) = some rest ∧
      ((∃ v, readSequence ch src = .finished v rest) ∨ readSequence ch src = .bad rest)) ∨
    (nextChar (ch :: src) = none ∧ readSequence ch src = .ended) := by
  rw [nextChar]
  by_cases hlow : ch < 0xc0
  · rw [if_pos hlow]
    have hlen := (utf8Length_of_lt ch hlow).resolve_right hch
    exact .inl ⟨src, rfl, .inr (if_pos hlen)⟩
  rw [if_neg hlow, skipSequence, readSequence]
  by_cases hlen : utf8Length ch = 0
  · rw [hlen]
    exact .inl ⟨src, rfl, .inr rfl⟩
  rw [if_neg hlen]
  obtain ⟨v, rest, h, v', h'⟩ | ⟨rest, h, h'⟩ | ⟨h, h'⟩ :=
    readTrail_shape (utf8Length ch) 0 ((ch &&& utf8Mask (utf8Length ch)).setWidth 32) src
  · rw [h, h']
    refine .inl ⟨rest, rfl, ?_⟩
    dsimp only
    split_ifs
    · exact .inr rfl
    · exact .inr rfl
    · exact .inl ⟨v', rfl⟩
  · rw [h, h']
    exact .inl ⟨rest, rfl, .inr rfl⟩
  · rw [h, h']
    exact .inr ⟨rfl, rfl⟩

/-- One turn of the converter stores one character. -/
theorem mbstowcsLoop_next (dst : List WChar) (dstlen count : ℕ)
    (h : nextChar (ch :: src) = some rest) :
    ∃ w, mbstowcsLoop false dstlen (count + 1) (ch :: src) dst =
      mbstowcsLoop false dstlen count rest (dst ++ [w]) := by
  rw [mbstowcsLoop]
  by_cases hch : ch < 0x80
  · rw [nextChar, if_pos (utf8Length_ascii ch hch)] at h
    rw [if_pos hch, ← Option.some.inj h]
    exact ⟨_, rfl⟩
  · rw [if_neg hch]
    obtain ⟨rest', hnext, ⟨v, hread⟩ | hread⟩ | ⟨hnone, -⟩ := readSequence_shape src hch
    · rw [h] at hnext
      rw [hread, ← Option.some.inj hnext]
      exact ⟨_, rfl⟩
    · rw [h] at hnext
      rw [hread, ← Option.some.inj hnext]
      exact ⟨_, rfl⟩
    · rw [h] at hnone
      cases hnone

theorem not_cut_nil : ¬Cut [] := by
  intro h
  cases h with
  | inside hne => exact hne rfl
  | behind h => cases h

theorem cut_iff (h : nextChar src = some rest) : Cut src ↔ Cut rest := by
  constructor
  · intro hcut
    cases hcut with
    | inside _ hnone =>
      rw [h] at hnone
      cases hnone
    | behind hnext hcut =>
      rw [h] at hnext
      exact Option.some.inj hnext ▸ hcut
  · exact .behind h

/-- The converter against the query, by the room that is left. -/
theorem mbstowcsLoop_spec {n count : ℕ} (dst : List WChar) (dstlen : ℕ) (hn : src.length ≤ n) :
    (count < getLengthLoop n src → (mbstowcsLoop false dstlen count src dst).ret = -1 ∧
      (mbstowcsLoop false dstlen count src dst).dst.length = dst.length + count) ∧
    (count = getLengthLoop n src →
      (mbstowcsLoop false dstlen count src dst).dst.length = dst.length + count ∧
      (Cut src → (mbstowcsLoop false dstlen count src dst).ret = -1) ∧
      (¬Cut src → (mbstowcsLoop false dstlen count src dst).ret = dstlen)) := by
  induction n generalizing src count dst with
  | zero =>
    obtain rfl := List.length_eq_zero_iff.mp (Nat.le_zero.mp hn)
    refine ⟨fun h => absurd h (Nat.not_lt_zero _), ?_⟩
    rintro rfl
    refine ⟨rfl, fun h => absurd h not_cut_nil, fun _ => ?_⟩
    rw [mbstowcsLoop]
    exact Int.sub_zero _
  | succ n ih =>
    cases src with
    | nil =>
      rw [getLengthLoop_nil]
      refine ⟨fun h => absurd h (Nat.not_lt_zero _), ?_⟩
      rintro rfl
      refine ⟨rfl, fun h => absurd h not_cut_nil, fun _ => ?_⟩
      rw [mbstowcsLoop]
      exact Int.sub_zero _
    | cons ch src =>
      rw [getLengthLoop_cons]
      cases hnext : nextChar (ch :: src) with
      | none =>
        refine ⟨fun h => absurd h (Nat.not_lt_zero _), ?_⟩
        rintro rfl
        refine ⟨rfl, fun _ => rfl, fun h => absurd (.inside (List.cons_ne_nil _ _) hnext) h⟩
      | some rest =>
        dsimp only
        rw [cut_iff hnext]
        cases count with
        | zero =>
          refine ⟨fun _ => ⟨rfl, rfl⟩, fun h => ?_⟩
          exact absurd h.symm (Nat.succ_ne_zero _)
        | succ count =>
          obtain ⟨w, hw⟩ := mbstowcsLoop_next dst dstlen count hnext
          have hrest : rest.length ≤ n :=
            Nat.le_trans (nextChar_length hnext) (Nat.le_of_succ_le_succ hn)
          obtain ⟨hless, hexact⟩ := @ih rest count (dst ++ [w]) hrest
          have hlen : (dst ++ [w]).length + count = dst.length + (count + 1) := by
            rw [List.length_append, List.length_singleton]
            omega
          rw [hlen] at hless hexact
          rw [hw]
          exact ⟨fun h => hless (Nat.lt_of_succ_lt_succ h), fun h => hexact (Nat.succ.inj h)⟩

/-- The query is right unless the input ends inside a sequence that is not its only character. -/
theorem mbstowcs_queried_iff (src : List Byte) :
    Queried (wineUtf8Mbstowcs false src) (wineUtf8Mbstowcs false src 0).ret ↔
      ¬∃ rest, nextChar src = some rest ∧ Cut rest := by
  obtain ⟨n, hn⟩ : ∃ n, getLengthLoop src.length src = n := ⟨_, rfl⟩
  have hquery : (wineUtf8Mbstowcs false src 0).ret = n := by
    rw [wineUtf8Mbstowcs, if_pos rfl]
    exact congrArg Int.ofNat hn
  have hpositive : 0 < n ↔ ∃ rest, nextChar src = some rest := by
    cases src with
    | nil =>
      rw [getLengthLoop_nil] at hn
      rw [← hn]
      refine ⟨fun h => absurd h (Nat.lt_irrefl 0), ?_⟩
      rintro ⟨rest, h⟩
      cases h
    | cons ch src =>
      rw [List.length_cons, getLengthLoop_cons] at hn
      rw [← hn]
      cases nextChar (ch :: src) with
      | none =>
        refine ⟨fun h => absurd h (Nat.lt_irrefl 0), ?_⟩
        rintro ⟨rest, h⟩
        cases h
      | some rest => exact ⟨fun _ => ⟨rest, rfl⟩, fun _ => Nat.succ_pos _⟩
  have hconvert {dstlen : ℕ} (hd : 0 < dstlen) :
      wineUtf8Mbstowcs false src dstlen = mbstowcsLoop false dstlen dstlen src [] :=
    if_neg (Nat.ne_of_gt hd)
  rw [hquery]
  constructor
  · rintro hqueried ⟨rest, hnext, hcut⟩
    have hpos : 0 < n := hpositive.mpr ⟨rest, hnext⟩
    obtain ⟨hret, -⟩ := hqueried (Int.natCast_pos.mpr hpos)
    rw [Int.toNat_natCast, hconvert hpos] at hret
    have hspec := (mbstowcsLoop_spec [] n (Nat.le_refl src.length)).2 hn.symm
    rw [hspec.2.1 ((cut_iff hnext).mpr hcut)] at hret
    omega
  · intro hcut hpos
    have hpos' : 0 < n := Int.natCast_pos.mp hpos
    obtain ⟨rest, hnext⟩ := hpositive.mp hpos'
    have hnotcut : ¬Cut src := fun h => hcut ⟨rest, hnext, (cut_iff hnext).mp h⟩
    rw [Int.toNat_natCast, hconvert hpos']
    have hspec := (mbstowcsLoop_spec [] n (Nat.le_refl src.length)).2 hn.symm
    refine ⟨hspec.2.2 hnotcut, ?_, fun dstlen hd hlt => ?_⟩
    · rw [hspec.1, List.length_nil, Nat.zero_add]
    · have hlt' : dstlen < getLengthLoop src.length src := by
        rw [hn]
        exact Int.ofNat_lt.mp hlt
      have hless := (mbstowcsLoop_spec [] dstlen (Nat.le_refl src.length)).1 hlt'
      rw [hconvert hd]
      refine ⟨hless.1, ?_⟩
      rw [hless.2, List.length_nil, Nat.zero_add]

/-! ## Wide characters to UTF-8 -/

theorem wcstombsLoop_overflow {wide : List WChar} {len : ℕ} (dst : List Byte) (dstlen : ℕ)
    (h : len < (encode wide).length) : (wcstombsLoop dstlen wide len dst).ret = -1 ∧
      (wcstombsLoop dstlen wide len dst).dst.length ≤ dst.length + len := by
  induction wide generalizing len dst with
  | nil => exact absurd h (Nat.not_lt_zero _)
  | cons ch wide ih =>
    rw [wcstombsLoop]
    split
    · exact ⟨rfl, Nat.le_add_right _ _⟩
    · next hroom =>
      rw [encode_cons, List.length_append] at h
      obtain ⟨hret, hlen⟩ := ih (dst ++ utf8Bytes ch) (show len - (utf8Bytes ch).length < _ by omega)
      refine ⟨hret, hlen.trans ?_⟩
      rw [List.length_append]
      omega

/-- The length is an `int`, and a larger one wraps around to a positive one. -/
def LengthWraps (wide : List WChar) : Prop :=
  2 ^ 31 ≤ getLengthWcsUtf8 wide ∧ 0 < (getLengthWcsUtf8 wide : ℤ).bmod (2 ^ 32)

theorem wcstombs_queried_iff (wide : List WChar) :
    Queried (wineUtf8Wcstombs wide) ((wineUtf8Wcstombs wide 0).ret.bmod (2 ^ 32)) ↔
      ¬LengthWraps wide := by
  have hquery : (wineUtf8Wcstombs wide 0).ret = getLengthWcsUtf8 wide := by
    rw [wineUtf8Wcstombs, if_pos rfl]
  have hoverflow {dstlen : ℕ} (hd : 0 < dstlen) (hlt : dstlen < getLengthWcsUtf8 wide) :
      (wineUtf8Wcstombs wide dstlen).ret = -1 ∧ (wineUtf8Wcstombs wide dstlen).dst.length ≤ dstlen := by
    rw [getLengthWcsUtf8_eq] at hlt
    rw [wineUtf8Wcstombs, if_neg (Nat.ne_of_gt hd)]
    obtain ⟨hret, hlen⟩ := wcstombsLoop_overflow [] dstlen hlt
    rw [List.length_nil, Nat.zero_add] at hlen
    exact ⟨hret, hlen⟩
  rw [hquery]
  unfold LengthWraps
  obtain ⟨n, hn⟩ : ∃ n, getLengthWcsUtf8 wide = n := ⟨_, rfl⟩
  rw [hn] at hoverflow ⊢
  have hupper : (n : ℤ).bmod (2 ^ 32) < 2 ^ 31 := Int.bmod_lt (by decide)
  constructor
  · rintro hqueried ⟨hlarge, hpos⟩
    obtain ⟨hret, -⟩ := hqueried hpos
    rw [(hoverflow (by omega) (by omega)).1] at hret
    omega
  · intro hwraps hpos
    have hsmall : n < 2 ^ 31 := by
      by_contra hlarge
      exact hwraps ⟨Nat.le_of_not_lt hlarge, hpos⟩
    have hbmod : (n : ℤ).bmod (2 ^ 32) = n := Int.bmod_eq_of_le (by omega) (by omega)
    rw [hbmod] at hpos ⊢
    rw [Int.toNat_natCast]
    have hne : n ≠ 0 := by omega
    have hexact := wineUtf8Wcstombs_eq hne (Nat.le_of_eq hn)
    rw [getLengthWcsUtf8_eq] at hn
    rw [hexact, hn]
    refine ⟨rfl, rfl, fun dstlen hd hlt => ?_⟩
    exact hoverflow hd (Int.ofNat_lt.mp hlt)

/-- Both queries agree with the conversions, but for an input that ends inside a sequence and for a length
that wraps around. -/
theorem length_queries_iff (src : List Byte) (wide : List WChar) :
    (Queried (wineUtf8Mbstowcs false src) (wineUtf8Mbstowcs false src 0).ret ↔
      ¬∃ rest, nextChar src = some rest ∧ Cut rest) ∧
    (Queried (wineUtf8Wcstombs wide) ((wineUtf8Wcstombs wide 0).ret.bmod (2 ^ 32)) ↔
      ¬LengthWraps wide) :=
  ⟨mbstowcs_queried_iff src, wcstombs_queried_iff wide⟩

/-- A letter and the first byte of a sequence. -/
theorem not_mbstowcs_queried_cut :
    ¬Queried (wineUtf8Mbstowcs false [0x41, 0xe2]) (wineUtf8Mbstowcs false [0x41, 0xe2] 0).ret := by
  have hcut : nextChar [0xe2] = none := by
    rw [nextChar, if_neg (by decide), skipSequence, utf8Length_eq_two (by decide) (by decide)]
    rfl
  rw [mbstowcs_queried_iff, not_not]
  exact ⟨[0xe2], rfl, .inside (List.cons_ne_nil _ _) hcut⟩

end Wine.Utf8

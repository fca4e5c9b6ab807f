import Wine.Unicode

/-!
# The names of streams in an MSI database

Letters, digits, dots and underscores have codes of six bits. A stream name packs two of them, or a
last one, into one character of a reserved range and leaves other characters as they are. The
encoder does not notice that the second character of a pair has no code, so that a letter and, for
example, a hyphen behind it go into one character below the range.
-/

namespace Wine.Msi

/-- `MAX_STREAM_NAME` -/
def maxStreamName : ℕ := 0x1f

/-- The mark of the streams that hold tables. -/
def tableMark : WChar := 0x4840

def utf2mime (x : ℤ) : ℤ :=
  if 0x30 ≤ x ∧ x ≤ 0x39 then x - 0x30
  else if 0x41 ≤ x ∧ x ≤ 0x5a then x - 0x41 + 10
  else if 0x61 ≤ x ∧ x ≤ 0x7a then x - 0x61 + 10 + 26
  else if x = 0x2e then 10 + 26 + 26
  else if x = 0x5f then 10 + 26 + 26 + 1
  else -1

def mime2utf (x : ℤ) : WChar :=
  if x < 10 then BitVec.ofInt 16 (x + 0x30)
  else if x < 10 + 26 then BitVec.ofInt 16 (x - 10 + 0x41)
  else if x < 10 + 26 + 26 then BitVec.ofInt 16 (x - 10 - 26 + 0x61)
  else if x = 10 + 26 + 26 then 0x2e
  else 0x5f

/-- One round of `encode_streamname`: the character to write and the characters left to read. All
numbers are `DWORD`s, the results of `utf2mime` included. -/
def encodeChar (ch : WChar) (rest : List WChar) : BitVec 32 × List WChar :=
  if ch.toNat < 0x80 ∧ 0 ≤ utf2mime ch.toNat then
    let packed := BitVec.ofInt 32 (utf2mime ch.toNat) + 0x4800
    match rest with
    | [] => (packed, [])
    | next :: rest' =>
      if next.toNat < 0x80 then
        let mime := BitVec.ofInt 32 (utf2mime next.toNat)
        -- unsigned, so that this holds for -1 as well
        if 0 ≤ mime then (packed + ((mime + 0x3ffffc0) <<< 6), rest') else (packed, rest)
      else (packed, rest)
  else (ch.setWidth 32, rest)

/-- The loop of `encode_streamname` with `count` rounds left. The list ends where the zero stands,
which takes a round too. -/
def encodeLoop : ℕ → List WChar → Option (List WChar)
  | 0, _ => none
  | _ + 1, [] => some []
  | count + 1, ch :: rest =>
    (encodeLoop count (encodeChar ch rest).2).map ((encodeChar ch rest).1.setWidth 16 :: ·)

def encodeStreamname (bTable : Bool) (name : List WChar) : Option (List WChar) :=
  if bTable then (encodeLoop (maxStreamName - 1) name).map (tableMark :: ·)
  else encodeLoop (name.length + 2) name

def decodeChar (ch : WChar) : List WChar :=
  if 0x3800 ≤ ch.toNat ∧ ch.toNat < 0x4840 then
    if 0x4800 ≤ ch.toNat then [mime2utf (ch.toNat - 0x4800)]
    else
      [mime2utf ((ch - 0x3800) &&& 0x3f).toNat, mime2utf (((ch - 0x3800) >>> 6) &&& 0x3f).toNat]
  else [ch]

/-- The characters written; `decode_streamname` also returns their number. -/
def decodeStreamname (name : List WChar) : List WChar := name.flatMap decodeChar

/-! ## Names -/

/-- The characters of a name are outside the reserved range, and none is the terminator. -/
def IsName (name : List WChar) : Prop :=
  ∀ c ∈ name, c ≠ 0 ∧ ¬(0x3800 ≤ c.toNat ∧ c.toNat ≤ 0x4840)

/-- The character has a code of six bits. -/
def HasCode (c : WChar) : Prop := c.toNat < 0x80 ∧ 0 ≤ utf2mime c.toNat

instance (c : WChar) : Decidable (HasCode c) := inferInstanceAs (Decidable (_ ∧ _))

/-- The characters just below the reserved range, which a pair with an uncoded second character
becomes. -/
def Below (c : WChar) : Prop := 0x37c0 ≤ c.toNat ∧ c.toNat < 0x3800

instance (c : WChar) : Decidable (Below c) := inferInstanceAs (Decidable (_ ∧ _))

/-- No coded character that starts a pair stands before an uncoded one below 0x80, and no character
just below the reserved range could have come from such a pair. -/
def CleanName : List WChar → Bool
  | [] => true
  | [c] => HasCode c || !Below c
  | c :: d :: rest =>
    if HasCode c then
      if d.toNat < 0x80 then HasCode d && CleanName rest else CleanName rest
    else !Below c && CleanName (d :: rest)

/-- The characters that `encode_streamname` writes for a name, whatever its length. -/
def pack : List WChar → List WChar
  | [] => []
  | [c] => [(encodeChar c []).1.setWidth 16]
  | c :: d :: rest =>
    (encodeChar c (d :: rest)).1.setWidth 16 ::
      if HasCode c ∧ d.toNat < 0x80 then pack rest else pack (d :: rest)

variable {c d : WChar} {rest name : List WChar}

theorem encodeChar_of_not (h : ¬HasCode c) : encodeChar c rest = (c.setWidth 32, rest) :=
  if_neg h

theorem encodeChar_last (h : HasCode c) :
    encodeChar c [] = (BitVec.ofInt 32 (utf2mime c.toNat) + 0x4800, []) := if_pos h

theorem encodeChar_single (h : HasCode c) (hd : ¬d.toNat < 0x80) : encodeChar c (d :: rest) =
    (BitVec.ofInt 32 (utf2mime c.toNat) + 0x4800, d :: rest) :=
  (if_pos h).trans (if_neg hd)

theorem encodeChar_pair (h : HasCode c) (hd : d.toNat < 0x80) : encodeChar c (d :: rest) =
    (BitVec.ofInt 32 (utf2mime c.toNat) + 0x4800
      + ((BitVec.ofInt 32 (utf2mime d.toNat) + 0x3ffffc0) <<< 6), rest) :=
  (if_pos h).trans ((if_pos hd).trans (if_pos (BitVec.le_def.mpr (Nat.zero_le _))))

theorem utf2mime_lt (x : ℤ) : utf2mime x < 64 := by
  unfold utf2mime
  split_ifs <;> omega

theorem le_utf2mime (x : ℤ) : -1 ≤ utf2mime x := by
  unfold utf2mime
  split_ifs <;> omega

theorem mime2utf_utf2mime (h : HasCode c) : mime2utf (utf2mime c.toNat) = c := by
  obtain ⟨-, h⟩ := h
  apply BitVec.eq_of_toNat_eq
  unfold utf2mime at h ⊢
  unfold mime2utf
  split_ifs at h ⊢ <;> simp <;> omega

/-- The two kinds of results of `utf2mime` as `DWORD`s. -/
theorem ofInt_utf2mime (x : ℤ) : ∃ n : ℕ, n < 64 ∧
    (utf2mime x = n ∧ BitVec.ofInt 32 (utf2mime x) = BitVec.ofNat 32 n ∨
      utf2mime x = -1 ∧ BitVec.ofInt 32 (utf2mime x) = BitVec.ofNat 32 0xffffffff) := by
  have hlt := utf2mime_lt x
  have hle := le_utf2mime x
  by_cases h : utf2mime x = -1
  · exact ⟨0, by omega, .inr ⟨h, by rw [h]; rfl⟩⟩
  · obtain ⟨n, hn⟩ := Int.eq_ofNat_of_zero_le (by omega : 0 ≤ utf2mime x)
    exact ⟨n, by omega, .inl ⟨hn, by rw [hn]; rfl⟩⟩

theorem HasCode.ofInt (h : HasCode c) : ∃ n : ℕ, n < 64 ∧ utf2mime c.toNat = n ∧
    BitVec.ofInt 32 (utf2mime c.toNat) = BitVec.ofNat 32 n := by
  have hle := h.2
  obtain ⟨n, hn, ⟨he, hb⟩ | ⟨he, hb⟩⟩ := ofInt_utf2mime c.toNat
  · exact ⟨n, hn, he, hb⟩
  · omega

theorem ofNat_shiftLeft_six (n : ℕ) : BitVec.ofNat 32 n <<< 6 = BitVec.ofNat 32 (n * 2 ^ 6) := by
  apply BitVec.eq_of_toNat_eq
  rw [BitVec.toNat_shiftLeft, BitVec.toNat_ofNat, BitVec.toNat_ofNat, Nat.shiftLeft_eq,
    Nat.mod_mul_mod]

/-- A coded character without a partner. -/
theorem encode_single (h : HasCode c) :
    (((BitVec.ofInt 32 (utf2mime c.toNat) + 0x4800).setWidth 16 : WChar).toNat : ℤ)
      = 0x4800 + utf2mime c.toNat := by
  obtain ⟨n, hn, he, hb⟩ := h.ofInt
  have hsum : BitVec.ofNat 32 n + 0x4800 = BitVec.ofNat 32 (n + 0x4800) := by
    rw [BitVec.ofNat_add]
    rfl
  rw [hb, he, hsum, BitVec.toNat_setWidth, BitVec.toNat_ofNat]
  omega

/-- A coded character and the one behind it, be it coded or not. -/
theorem encode_pair (h : HasCode c) (x : ℤ) :
    (((BitVec.ofInt 32 (utf2mime c.toNat) + 0x4800
      + ((BitVec.ofInt 32 (utf2mime x) + 0x3ffffc0) <<< 6)).setWidth 16 : WChar).toNat : ℤ)
      = 0x3800 + utf2mime c.toNat + 64 * utf2mime x := by
  obtain ⟨n, hn, he, hb⟩ := h.ofInt
  rw [hb, he]
  obtain ⟨m, hm, ⟨hx, hxb⟩ | ⟨hx, hxb⟩⟩ := ofInt_utf2mime x
  · have hsum : BitVec.ofNat 32 n + 0x4800 + ((BitVec.ofNat 32 m + 0x3ffffc0) <<< 6) =
        BitVec.ofNat 32 (n + 0x4800 + (m + 0x3ffffc0) * 2 ^ 6) := by
      rw [BitVec.ofNat_add, BitVec.ofNat_add, ← ofNat_shiftLeft_six, BitVec.ofNat_add]
      rfl
    rw [hxb, hx, hsum, BitVec.toNat_setWidth, BitVec.toNat_ofNat]
    omega
  · have hsum : BitVec.ofNat 32 n + 0x4800 + ((BitVec.ofNat 32 0xffffffff + 0x3ffffc0) <<< 6) =
        BitVec.ofNat 32 (n + 0x4800 + 0xffffefc0) := by
      rw [BitVec.ofNat_add, BitVec.ofNat_add]
      rfl
    rw [hxb, hx, hsum, BitVec.toNat_setWidth, BitVec.toNat_ofNat]
    omega

/-! ## The packed characters -/

theorem HasCode.ne_zero (h : HasCode c) : c.toNat ≠ 0 := by
  intro h0
  have hle := h.2
  rw [h0] at hle
  exact absurd hle (by decide)

theorem not_hasCode (h : 0x80 ≤ c.toNat) : ¬HasCode c := fun hc => Nat.not_lt.mpr h hc.1

theorem pack_cons (c : WChar) (rest : List WChar) : pack (c :: rest) =
    (encodeChar c rest).1.setWidth 16 :: pack (encodeChar c rest).2 := by
  cases rest with
  | nil =>
    have hrest : (encodeChar c []).2 = [] := by
      by_cases hc : HasCode c
      · rw [encodeChar_last hc]
      · rw [encodeChar_of_not hc]
    rw [hrest]
    rfl
  | cons d l =>
    rw [pack]
    by_cases hc : HasCode c
    · by_cases hd : d.toNat < 0x80
      · rw [if_pos ⟨hc, hd⟩, encodeChar_pair hc hd]
      · rw [if_neg fun h => hd h.2, encodeChar_single hc hd]
    · rw [if_neg fun h => hc h.1, encodeChar_of_not hc]

theorem pack_plain (h : ¬HasCode c) : pack (c :: rest) = c :: pack rest := by
  have hc : (c.setWidth 32).setWidth 16 = c :=
    BitVec.eq_of_toNat_eq (by simp only [BitVec.toNat_setWidth]; omega)
  rw [pack_cons, encodeChar_of_not h, hc]

theorem pack_last (h : HasCode c) :
    ∃ x : WChar, pack [c] = [x] ∧ (x.toNat : ℤ) = 0x4800 + utf2mime c.toNat :=
  ⟨_, by rw [pack_cons, encodeChar_last h]; rfl, encode_single h⟩

/-- A coded character before one that is not looked at as a partner. -/
theorem pack_single (h : HasCode c) (hd : 0x80 ≤ d.toNat) (rest : List WChar) :
    ∃ x : WChar, pack (c :: d :: rest) = x :: d :: pack rest ∧
      (x.toNat : ℤ) = 0x4800 + utf2mime c.toNat :=
  ⟨_, by rw [pack_cons, encodeChar_single h (Nat.not_lt.mpr hd), pack_plain (not_hasCode hd)],
    encode_single h⟩

theorem pack_pair (h : HasCode c) (hd : d.toNat < 0x80) (rest : List WChar) :
    ∃ x : WChar, pack (c :: d :: rest) = x :: pack rest ∧
      (x.toNat : ℤ) = 0x3800 + utf2mime c.toNat + 64 * utf2mime d.toNat :=
  ⟨_, by rw [pack_cons, encodeChar_pair h hd], encode_pair h _⟩

theorem encodeLoop_eq (count : ℕ) (name : List WChar) : encodeLoop count name =
    if (pack name).length < count then some (pack name) else none := by
  induction count generalizing name with
  | zero => rw [encodeLoop, if_neg (Nat.not_lt_zero _)]
  | succ count ih =>
    cases name with
    | nil => exact (if_pos (Nat.succ_pos count)).symm
    | cons c rest =>
      rw [encodeLoop, ih, pack_cons, List.length_cons]
      split_ifs with h₁ h₂ h₂
      · rfl
      · omega
      · omega
      · rfl

/-! ## Unpacking -/

theorem decodeChar_plain (h : ¬(0x3800 ≤ c.toNat ∧ c.toNat < 0x4840)) : decodeChar c = [c] := by
  rw [decodeChar, if_neg h]

theorem decodeChar_last (hc : HasCode c) {x : WChar}
    (hx : (x.toNat : ℤ) = 0x4800 + utf2mime c.toNat) : decodeChar x = [c] := by
  have hlt := utf2mime_lt c.toNat
  have hle := hc.2
  rw [decodeChar, if_pos (by omega), if_pos (by omega)]
  rw [show (x.toNat : ℤ) - 0x4800 = utf2mime c.toNat by omega, mime2utf_utf2mime hc]

theorem decodeChar_pair (hc : HasCode c) (hd : HasCode d) {x : WChar}
    (hx : (x.toNat : ℤ) = 0x3800 + utf2mime c.toNat + 64 * utf2mime d.toNat) :
    decodeChar x = [c, d] := by
  have hclt := utf2mime_lt c.toNat
  have hcle := hc.2
  have hdlt := utf2mime_lt d.toNat
  have hdle := hd.2
  have hsub : ((x - 0x3800).toNat : ℤ) = utf2mime c.toNat + 64 * utf2mime d.toNat := by
    rw [BitVec.toNat_sub, show (0x3800 : WChar).toNat = 0x3800 from rfl]
    omega
  have hlow : (((x - 0x3800) &&& 0x3f).toNat : ℤ) = utf2mime c.toNat := by
    have hand : ((x - 0x3800) &&& 0x3f).toNat = (x - 0x3800).toNat % 2 ^ 6 :=
      Nat.and_two_pow_sub_one_eq_mod _ 6
    rw [hand]
    omega
  have hhigh : ((((x - 0x3800) >>> 6) &&& 0x3f).toNat : ℤ) = utf2mime d.toNat := by
    have hand : (((x - 0x3800) >>> 6) &&& 0x3f).toNat = ((x - 0x3800) >>> 6).toNat % 2 ^ 6 :=
      Nat.and_two_pow_sub_one_eq_mod _ 6
    rw [hand, BitVec.toNat_ushiftRight, Nat.shiftRight_eq_div_pow]
    omega
  rw [decodeChar, if_pos (by omega), if_neg (by omega), hlow, hhigh, mime2utf_utf2mime hc,
    mime2utf_utf2mime hd]

theorem decodeStreamname_cons (x : WChar) (l : List WChar) :
    decodeStreamname (x :: l) = decodeChar x ++ decodeStreamname l := List.flatMap_cons

theorem IsName.tail (h : IsName (c :: rest)) : IsName rest :=
  fun d hd => h d (List.mem_cons_of_mem c hd)

theorem IsName.cons (hc : c ≠ 0 ∧ ¬(0x3800 ≤ c.toNat ∧ c.toNat ≤ 0x4840)) (h : IsName rest) :
    IsName (c :: rest) := by
  intro d hd
  rcases List.mem_cons.mp hd with rfl | hd
  · exact hc
  · exact h d hd

theorem IsName.head (h : IsName (c :: rest)) : decodeChar c = [c] :=
  decodeChar_plain fun hc => (h c List.mem_cons_self).2 ⟨hc.1, Nat.le_of_lt hc.2⟩

theorem decode_pack (h : IsName name) (hclean : CleanName name = true) :
    decodeStreamname (pack name) = name := by
  fun_induction CleanName name with
  | case1 => rfl
  | case2 c =>
    by_cases hc : HasCode c
    · obtain ⟨x, hp, hx⟩ := pack_last hc
      rw [hp, decodeStreamname_cons, decodeChar_last hc hx]
      rfl
    · rw [pack_plain hc, decodeStreamname_cons, h.head]
      rfl
  | case3 c d rest hc hd ih =>
    rw [Bool.and_eq_true, decide_eq_true_eq] at hclean
    obtain ⟨x, hp, hx⟩ := pack_pair hc hd rest
    rw [hp, decodeStreamname_cons, decodeChar_pair hc hclean.1 hx, ih h.tail.tail hclean.2]
    rfl
  | case4 c d rest hc hd ih =>
    obtain ⟨x, hp, hx⟩ := pack_single hc (Nat.le_of_not_lt hd) rest
    rw [hp, decodeStreamname_cons, decodeStreamname_cons, decodeChar_last hc hx, h.tail.head,
      ih h.tail.tail hclean]
    rfl
  | case5 c d rest hc ih =>
    rw [Bool.and_eq_true] at hclean
    rw [pack_plain hc, decodeStreamname_cons, h.head, ih h.tail hclean.2]
    rfl

/-! ## Names with the same stream -/

/-- How the packing of a name starts. -/
inductive Packed (c : WChar) : List WChar → List WChar → Prop
  | plain (rest : List WChar) : ¬HasCode c → Packed c rest (c :: pack rest)
  | last (x : WChar) : HasCode c → (x.toNat : ℤ) = 0x4800 + utf2mime c.toNat → Packed c [] [x]
  | single (x d : WChar) (l : List WChar) : HasCode c → 0x80 ≤ d.toNat →
      (x.toNat : ℤ) = 0x4800 + utf2mime c.toNat → Packed c (d :: l) (x :: d :: pack l)
  | pair (x d : WChar) (l : List WChar) : HasCode c → d.toNat < 0x80 →
      (x.toNat : ℤ) = 0x3800 + utf2mime c.toNat + 64 * utf2mime d.toNat →
      Packed c (d :: l) (x :: pack l)

theorem packed (c : WChar) (rest : List WChar) : Packed c rest (pack (c :: rest)) := by
  by_cases hc : HasCode c
  · cases rest with
    | nil =>
      obtain ⟨x, hp, hx⟩ := pack_last hc
      exact hp ▸ .last x hc hx
    | cons d l =>
      by_cases hd : d.toNat < 0x80
      · obtain ⟨x, hp, hx⟩ := pack_pair hc hd l
        exact hp ▸ .pair x d l hc hd hx
      · obtain ⟨x, hp, hx⟩ := pack_single hc (Nat.le_of_not_lt hd) l
        exact hp ▸ .single x d l hc (Nat.le_of_not_lt hd) hx
  · exact pack_plain hc ▸ .plain rest hc

theorem eq_of_utf2mime (hc : HasCode c) (hd : HasCode d)
    (h : utf2mime c.toNat = utf2mime d.toNat) : c = d := by
  rw [← mime2utf_utf2mime hc, h, mime2utf_utf2mime hd]

theorem pack_ne_nil (c : WChar) (rest : List WChar) : pack (c :: rest) ≠ [] := by
  rw [pack_cons]
  exact List.cons_ne_nil _ _

variable {c' x : WChar} {rest' out : List WChar}

theorem Packed.of_plain (h : Packed c' rest' (c :: out))
    (hc : c.toNat < 0x37c0 ∨ 0x4840 < c.toNat) : c' = c ∧ pack rest' = out := by
  generalize hl : c :: out = l at h
  cases h with
  | plain _ _ =>
    cases hl
    exact ⟨rfl, rfl⟩
  | last x hc' hx =>
    cases hl
    have hlt := utf2mime_lt c'.toNat
    have hle := hc'.2
    omega
  | single x d r hc' hd hx =>
    cases hl
    have hlt := utf2mime_lt c'.toNat
    have hle := hc'.2
    omega
  | pair x d r hc' hd hx =>
    cases hl
    have hlt := utf2mime_lt c'.toNat
    have hle := hc'.2
    have hdlt := utf2mime_lt d.toNat
    have hdle := le_utf2mime d.toNat
    omega

theorem Packed.of_code (h : Packed c' rest' (x :: out)) (hn : IsName (c' :: rest'))
    (hc : HasCode c) (hx : (x.toNat : ℤ) = 0x4800 + utf2mime c.toNat) :
    c' = c ∧ (rest' = [] ∧ out = [] ∨ ∃ d l, rest' = d :: l ∧ 0x80 ≤ d.toNat ∧ out = d :: pack l) := by
  have hclt := utf2mime_lt c.toNat
  have hcle := hc.2
  generalize hl : x :: out = l at h
  cases h with
  | plain _ _ =>
    cases hl
    exact absurd ⟨by omega, by omega⟩ (hn c' List.mem_cons_self).2
  | last x hc' hx' =>
    cases hl
    exact ⟨eq_of_utf2mime hc' hc (by omega), .inl ⟨rfl, rfl⟩⟩
  | single x d r hc' hd hx' =>
    cases hl
    exact ⟨eq_of_utf2mime hc' hc (by omega), .inr ⟨d, r, rfl, hd, rfl⟩⟩
  | pair x d r hc' hd hx' =>
    cases hl
    have hlt := utf2mime_lt c'.toNat
    have hdlt := utf2mime_lt d.toNat
    omega

theorem Packed.of_pair (h : Packed c' rest' (x :: out)) (hn : IsName (c' :: rest'))
    (hc : HasCode c) (hd : HasCode d)
    (hx : (x.toNat : ℤ) = 0x3800 + utf2mime c.toNat + 64 * utf2mime d.toNat) :
    ∃ l, c' :: rest' = c :: d :: l ∧ out = pack l := by
  have hclt := utf2mime_lt c.toNat
  have hcle := hc.2
  have hdlt := utf2mime_lt d.toNat
  have hdle := hd.2
  generalize hl : x :: out = l at h
  cases h with
  | plain _ _ =>
    cases hl
    exact absurd ⟨by omega, by omega⟩ (hn c' List.mem_cons_self).2
  | last x hc' hx' =>
    cases hl
    have hlt := hc'.2
    omega
  | single x d r hc' hd hx' =>
    cases hl
    have hlt := hc'.2
    omega
  | pair x d' r hc' hd' hx' =>
    cases hl
    have hlt := utf2mime_lt c'.toNat
    have hle := hc'.2
    have hd'le : 0 ≤ utf2mime d'.toNat := by
      have := le_utf2mime d'.toNat
      omega
    obtain rfl := eq_of_utf2mime hc' hc (by omega)
    obtain rfl := eq_of_utf2mime ⟨hd', hd'le⟩ hd (by omega)
    exact ⟨r, rfl, rfl⟩

theorem plain_range (h : IsName (c :: rest)) (hb : ¬Below c) :
    c.toNat < 0x37c0 ∨ 0x4840 < c.toNat := by
  have hr := (h c List.mem_cons_self).2
  unfold Below at hb
  omega

/-- No other name is packed as a clean one is. -/
theorem eq_of_pack {name' : List WChar} (hclean : CleanName name = true) (h : IsName name)
    (h' : IsName name') (he : pack name' = pack name) : name' = name := by
  fun_induction CleanName name generalizing name' with
  | case1 =>
    cases name' with
    | nil => rfl
    | cons c' rest' => exact absurd he (pack_ne_nil c' rest')
  | case2 c =>
    cases name' with
    | nil => exact absurd he.symm (pack_ne_nil c [])
    | cons c' rest' =>
      have hp := packed c' rest'
      by_cases hc : HasCode c
      · obtain ⟨x, hx', hx⟩ := pack_last hc
        rw [he, hx'] at hp
        obtain ⟨rfl, ⟨rfl, -⟩ | ⟨d, l, -, -, hnil⟩⟩ := hp.of_code h' hc hx
        · rfl
        · cases hnil
      · have hb : ¬Below c := by simpa [hc] using hclean
        rw [he, pack_plain hc] at hp
        obtain ⟨rfl, hrest⟩ := hp.of_plain (plain_range h hb)
        cases rest' with
        | nil => rfl
        | cons d l => exact absurd hrest (pack_ne_nil d l)
  | case3 c d rest hc hd ih =>
    rw [Bool.and_eq_true, decide_eq_true_eq] at hclean
    cases name' with
    | nil => exact absurd he.symm (pack_ne_nil c _)
    | cons c' rest' =>
      have hp := packed c' rest'
      obtain ⟨x, hx', hx⟩ := pack_pair hc hd rest
      rw [he, hx'] at hp
      obtain ⟨l, hl, hpack⟩ := hp.of_pair h' hc hclean.1 hx
      rw [hl] at h' ⊢
      rw [ih hclean.2 h.tail.tail h'.tail.tail hpack.symm]
  | case4 c d rest hc hd ih =>
    cases name' with
    | nil => exact absurd he.symm (pack_ne_nil c _)
    | cons c' rest' =>
      have hp := packed c' rest'
      obtain ⟨x, hx', hx⟩ := pack_single hc (Nat.le_of_not_lt hd) rest
      rw [he, hx'] at hp
      obtain ⟨rfl, ⟨-, hnil⟩ | ⟨d', l, rfl, -, hpack⟩⟩ := hp.of_code h' hc hx
      · cases hnil
      · obtain ⟨rfl, hrest⟩ := List.cons.inj hpack
        rw [ih hclean h.tail.tail h'.tail.tail hrest.symm]
  | case5 c d rest hc ih =>
    rw [Bool.and_eq_true] at hclean
    cases name' with
    | nil => exact absurd he.symm (pack_ne_nil c _)
    | cons c' rest' =>
      have hp := packed c' rest'
      have hb : ¬Below c := by simpa using hclean.1
      rw [he, pack_plain hc] at hp
      obtain ⟨rfl, hrest⟩ := hp.of_plain (plain_range h hb)
      rw [ih hclean.2 h.tail h'.tail hrest]

theorem utf2mime_mime2utf {x : ℤ} (hle : 0 ≤ x) (hlt : x < 64) :
    HasCode (mime2utf x) ∧ utf2mime (mime2utf x).toNat = x := by
  have hall : ∀ n : Fin 64,
      HasCode (mime2utf (n : ℕ)) ∧ utf2mime (mime2utf (n : ℕ)).toNat = (n : ℕ) := by decide
  obtain ⟨n, rfl⟩ := Int.eq_ofNat_of_zero_le hle
  exact hall ⟨n, by omega⟩

/-- A character without a code. -/
def hyphen : WChar := 0x2d

/-- A character just below the reserved range is also what a coded character and a hyphen become. -/
theorem exists_pair (h : Below c) (rest : List WChar) :
    ∃ m, HasCode m ∧ pack (m :: hyphen :: rest) = c :: pack rest := by
  obtain ⟨hlow, hhigh⟩ := h
  obtain ⟨hm, hc⟩ := utf2mime_mime2utf (by omega : 0 ≤ (c.toNat : ℤ) - 0x37c0) (by omega)
  obtain ⟨x, hp, hx⟩ := pack_pair hm (by decide : hyphen.toNat < 0x80) rest
  have hy : utf2mime hyphen.toNat = -1 := by decide
  obtain rfl : x = c := BitVec.eq_of_toNat_eq (by omega)
  exact ⟨_, hm, hp⟩

theorem HasCode.isName (h : HasCode c) : c ≠ 0 ∧ ¬(0x3800 ≤ c.toNat ∧ c.toNat ≤ 0x4840) := by
  have hlt := h.1
  refine ⟨?_, by omega⟩
  rintro rfl
  exact h.ne_zero rfl

/-- The pair takes the place of a character just below the range. -/
theorem exists_other (h : IsName (c :: rest)) (hb : Below c) :
    ∃ name', IsName name' ∧ name' ≠ c :: rest ∧ pack name' = pack (c :: rest) := by
  obtain ⟨m, hm, hp⟩ := exists_pair hb rest
  refine ⟨m :: hyphen :: rest, .cons hm.isName (.cons (by decide) h.tail), fun he => ?_, ?_⟩
  · exact List.cons_ne_self _ _ (List.cons.inj he).2
  · rw [hp, pack_plain (not_hasCode (Nat.le_trans (by decide) hb.1))]

/-- A name that is not clean does not come back, or another name is packed as it is. -/
theorem not_clean (h : IsName name) (hclean : CleanName name = false) :
    decodeStreamname (pack name) ≠ name ∨
      ∃ name', IsName name' ∧ name' ≠ name ∧ pack name' = pack name := by
  fun_induction CleanName name with
  | case1 => cases hclean
  | case2 c =>
    have hb : Below c := by
      by_cases hb : Below c
      · exact hb
      · simp [hb] at hclean
    exact .inr (exists_other h hb)
  | case3 c d rest hc hd ih =>
    obtain ⟨x, hp, hx⟩ := pack_pair hc hd rest
    by_cases hcode : HasCode d
    · rw [hp, decodeStreamname_cons, decodeChar_pair hc hcode hx]
      rcases ih h.tail.tail (by simpa [hcode] using hclean) with hne | ⟨name', hn, hne, he⟩
      · exact .inl fun he => hne (List.append_cancel_left he)
      · refine .inr ⟨c :: d :: name', .cons hc.isName (.cons hcode.isName hn), ?_, ?_⟩
        · exact fun hcons => hne (List.cons.inj (List.cons.inj hcons).2).2
        · obtain ⟨x', hp', hx'⟩ := pack_pair hc hd name'
          rw [hp', he, BitVec.eq_of_toNat_eq (by omega : x'.toNat = x.toNat)]
    · left
      have hlt := utf2mime_lt c.toNat
      have hle := hc.2
      have hdle := le_utf2mime d.toNat
      have hdlt : utf2mime d.toNat = -1 := by
        by_cases h0 : 0 ≤ utf2mime d.toNat
        · exact absurd ⟨hd, h0⟩ hcode
        · omega
      rw [hp, decodeStreamname_cons, decodeChar_plain (by omega)]
      intro he
      obtain ⟨rfl, -⟩ := List.cons.inj he
      have := hc.1
      omega
  | case4 c d rest hc hd ih =>
    obtain ⟨x, hp, hx⟩ := pack_single hc (Nat.le_of_not_lt hd) rest
    rcases ih h.tail.tail hclean with hne | ⟨name', hn, hne, he⟩
    · left
      rw [hp, decodeStreamname_cons, decodeStreamname_cons, decodeChar_last hc hx, h.tail.head]
      exact fun he => hne (List.cons.inj (List.cons.inj he).2).2
    · refine .inr ⟨c :: d :: name', .cons hc.isName (.cons (h.tail d List.mem_cons_self) hn),
        ?_, ?_⟩
      · exact fun hcons => hne (List.cons.inj (List.cons.inj hcons).2).2
      · obtain ⟨x', hp', hx'⟩ := pack_single hc (Nat.le_of_not_lt hd) name'
        rw [hp', hp, he, BitVec.eq_of_toNat_eq (by omega : x'.toNat = x.toNat)]
  | case5 c d rest hc ih =>
    by_cases hb : Below c
    · exact .inr (exists_other h hb)
    · rcases ih h.tail (by simpa [hb] using hclean) with hne | ⟨name', hn, hne, he⟩
      · left
        rw [pack_plain hc, decodeStreamname_cons, h.head]
        exact fun he => hne (List.cons.inj he).2
      · refine .inr ⟨c :: name', .cons (h c List.mem_cons_self) hn, ?_, ?_⟩
        · exact fun hcons => hne (List.cons.inj hcons).2
        · rw [pack_plain hc, pack_plain hc, he]

/-! ## Streams -/

theorem pack_length_le (name : List WChar) : (pack name).length ≤ name.length := by
  fun_induction pack name with
  | case1 => exact Nat.le_refl _
  | case2 c => exact Nat.le_refl _
  | case3 c d rest h₁ h₂ =>
    simp only [List.length_cons] at *
    split_ifs <;> omega

theorem encodeStreamname_eq (bTable : Bool) (name : List WChar) :
    encodeStreamname bTable name =
      if bTable then
        if (pack name).length < maxStreamName - 1 then some (tableMark :: pack name) else none
      else some (pack name) := by
  have hle := pack_length_le name
  unfold encodeStreamname
  split_ifs with hb hlt
  · rw [encodeLoop_eq, if_pos hlt]
    rfl
  · rw [encodeLoop_eq, if_neg hlt]
    rfl
  · rw [encodeLoop_eq, if_pos (by omega)]

theorem encodeStreamname_eq_some {bTable : Bool} (h : encodeStreamname bTable name = some out) :
    out = (if bTable then [tableMark] else []) ++ pack name := by
  rw [encodeStreamname_eq] at h
  split_ifs at h ⊢ <;> cases h <;> rfl

theorem pack_ne_mark (h : IsName name) (out : List WChar) : pack name ≠ tableMark :: out := by
  intro he
  cases name with
  | nil => cases he
  | cons c rest =>
    have hp := packed c rest
    rw [he] at hp
    generalize hl : tableMark :: out = l at hp
    have hmark : tableMark.toNat = 0x4840 := rfl
    cases hp with
    | plain _ _ =>
      cases hl
      exact absurd ⟨by decide, by decide⟩ (h tableMark List.mem_cons_self).2
    | last x hc hx =>
      cases hl
      have hlt := utf2mime_lt c.toNat
      omega
    | single x d r hc hd hx =>
      cases hl
      have hlt := utf2mime_lt c.toNat
      omega
    | pair x d r hc hd hx =>
      cases hl
      have hlt := utf2mime_lt c.toNat
      have hdlt := utf2mime_lt d.toNat
      omega

/-- A name of an accepted length comes back from its stream, and the stream has no other name,
exactly when the name is clean. -/
theorem streamname_iff (bTable : Bool) (name out : List WChar) (hn : IsName name)
    (hout : encodeStreamname bTable name = some out) :
    (decodeStreamname out = (if bTable then [tableMark] else []) ++ name ∧
      ∀ bTable' name', IsName name' → encodeStreamname bTable' name' = some out →
        bTable' = bTable ∧ name' = name) ↔ CleanName name = true := by
  have ho := encodeStreamname_eq_some hout
  have hdecode : decodeStreamname out =
      (if bTable then [tableMark] else []) ++ decodeStreamname (pack name) := by
    rw [ho]
    cases bTable with
    | false => rfl
    | true => exact decodeStreamname_cons _ _
  constructor
  · rintro ⟨hback, hunique⟩
    by_contra hclean
    rcases not_clean hn (Bool.not_eq_true _ ▸ hclean) with hne | ⟨name', hn', hne, he⟩
    · exact hne (List.append_cancel_left (hdecode.symm.trans hback))
    · refine hne (hunique bTable name' hn' ?_).2
      rw [encodeStreamname_eq, he, ← encodeStreamname_eq]
      exact hout
  · intro hclean
    refine ⟨by rw [hdecode, decode_pack hn hclean], fun bTable' name' hn' hout' => ?_⟩
    have ho' := encodeStreamname_eq_some hout'
    rw [ho] at ho'
    cases bTable <;> cases bTable'
    · exact ⟨rfl, eq_of_pack hclean hn hn' ho'.symm⟩
    · exact absurd ho' (pack_ne_mark hn _)
    · exact absurd ho'.symm (pack_ne_mark hn' _)
    · exact ⟨rfl, eq_of_pack hclean hn hn' (List.cons.inj ho').2.symm⟩

/-- The table `A.b_1`, with a last character of its own. -/
theorem streamname_clean :
    decodeStreamname [0x4840, 0x478a, 0x47e5, 0x4801] = [0x4840, 0x41, 0x2e, 0x62, 0x5f, 0x31] ∧
      ∀ bTable' name', IsName name' →
        encodeStreamname bTable' name' = some [0x4840, 0x478a, 0x47e5, 0x4801] →
        bTable' = true ∧ name' = [0x41, 0x2e, 0x62, 0x5f, 0x31] := by
  have hname : IsName [0x41, 0x2e, 0x62, 0x5f, 0x31] := by simp [IsName]
  have hclean := (streamname_iff true [0x41, 0x2e, 0x62, 0x5f, 0x31]
    [0x4840, 0x478a, 0x47e5, 0x4801] hname (by decide +kernel)).mpr (by decide +kernel)
  exact ⟨hclean.1.trans rfl, hclean.2⟩

/-- The table `A-` has the stream of `A+`, and its name does not come back. -/
theorem streamname_hyphen :
    ¬∀ bTable name out, IsName name → encodeStreamname bTable name = some out →
      decodeStreamname out = (if bTable then [tableMark] else []) ++ name ∧
        ∀ bTable' name', IsName name' → encodeStreamname bTable' name' = some out →
          bTable' = bTable ∧ name' = name := by
  intro h
  have hname : IsName [0x41, 0x2d] := by simp [IsName]
  have hback := (h true [0x41, 0x2d] [tableMark, 0x37ca] hname (by decide +kernel)).1
  have hne : decodeStreamname [tableMark, 0x37ca] ≠ [tableMark] ++ [0x41, 0x2d] := by
    decide +kernel
  exact hne hback

end Wine.Msi

import Wine.Registry.Text

/-!
# Escaped strings

`dump_strW` writes a string so that `parse_strW` reads it back. The digits of a numeric escape end
where the reader expects it: they are padded to full length where a digit follows.
-/

namespace Wine.Registry
open Wine.Lib

variable {ds rest : List Byte} {str : List WChar} {c : WChar} {d : Byte} {b n k fuel : ℕ}
  {escape : Byte × Byte}

/-! ## Digits -/

theorem isxdigit_digit : ∀ n < 16, isxdigit (digit n) = true ∧ toHex (digit n) = n := by decide

theorem isodigit_digit : ∀ n < 8, isodigit (digit n) = true ∧ (digit n).toNat - 48 = n := by decide

theorem hexValue_append : hexValue (ds ++ [d]) = hexValue ds * 16 + toHex d :=
  List.foldl_append

theorem octalValue_append : octalValue (ds ++ [d]) = octalValue ds * 8 + (d.toNat - 48) :=
  List.foldl_append

/-- Leading zeros add nothing. -/
theorem hexValue_zeros : hexValue (List.replicate k (ascii '0') ++ ds) = hexValue ds := by
  induction k with
  | zero => rfl
  | succ k ih => exact ih

theorem octalValue_zeros : octalValue (List.replicate k (ascii '0') ++ ds) = octalValue ds := by
  induction k with
  | zero => rfl
  | succ k ih => exact ih

theorem digitsFrom_hex (hn : n < fuel) : (∀ d ∈ digitsFrom 16 fuel n, isxdigit d = true) ∧
    hexValue (digitsFrom 16 fuel n) = n ∧ digitsFrom 16 fuel n ≠ [] := by
  induction fuel generalizing n with
  | zero => exact absurd hn (Nat.not_lt_zero n)
  | succ fuel ih =>
    unfold digitsFrom
    split
    · next hlt =>
      obtain ⟨hdigit, hvalue⟩ := isxdigit_digit n hlt
      refine ⟨fun d hd => ?_, ?_, List.cons_ne_nil _ _⟩
      · rw [List.mem_singleton.mp hd]
        exact hdigit
      · show 0 * 16 + toHex (digit n) = n
        omega
    · next hge =>
      obtain ⟨hall, hrest, -⟩ := ih (show n / 16 < fuel by omega)
      obtain ⟨hdigit, hvalue⟩ := isxdigit_digit (n % 16) (by omega)
      refine ⟨fun d hd => ?_, ?_, List.append_ne_nil_of_right_ne_nil _ (List.cons_ne_nil _ _)⟩
      · obtain hd | hd := List.mem_append.mp hd
        · exact hall d hd
        · rw [List.mem_singleton.mp hd]
          exact hdigit
      · rw [hexValue_append, hrest, hvalue]
        omega

theorem digitsFrom_octal (hn : n < fuel) : (∀ d ∈ digitsFrom 8 fuel n, isodigit d = true) ∧
    octalValue (digitsFrom 8 fuel n) = n ∧ digitsFrom 8 fuel n ≠ [] := by
  induction fuel generalizing n with
  | zero => exact absurd hn (Nat.not_lt_zero n)
  | succ fuel ih =>
    unfold digitsFrom
    split
    · next hlt =>
      obtain ⟨hdigit, hvalue⟩ := isodigit_digit n hlt
      refine ⟨fun d hd => ?_, ?_, List.cons_ne_nil _ _⟩
      · rw [List.mem_singleton.mp hd]
        exact hdigit
      · show 0 * 8 + ((digit n).toNat - 48) = n
        omega
    · next hge =>
      obtain ⟨hall, hrest, -⟩ := ih (show n / 8 < fuel by omega)
      obtain ⟨hdigit, hvalue⟩ := isodigit_digit (n % 8) (by omega)
      refine ⟨fun d hd => ?_, ?_, List.append_ne_nil_of_right_ne_nil _ (List.cons_ne_nil _ _)⟩
      · obtain hd | hd := List.mem_append.mp hd
        · exact hall d hd
        · rw [List.mem_singleton.mp hd]
          exact hdigit
      · rw [octalValue_append, hrest, hvalue]
        omega

theorem length_digitsFrom (hb : 2 ≤ b) (hn : n < b ^ k) (hk : 0 < k) :
    (digitsFrom b fuel n).length ≤ k := by
  induction fuel generalizing n k with
  | zero => exact Nat.zero_le k
  | succ fuel ih =>
    unfold digitsFrom
    split
    · exact hk
    · next hge =>
      obtain ⟨k, rfl⟩ := Nat.exists_eq_succ_of_ne_zero (Nat.pos_iff_ne_zero.mp hk)
      rw [Nat.pow_succ] at hn
      have hk' : 0 < k := by
        refine Nat.pos_of_ne_zero fun h0 => hge ?_
        rw [h0, Nat.pow_zero, Nat.one_mul] at hn
        exact hn
      rw [List.length_append, List.length_singleton]
      exact Nat.succ_le_succ (ih ((Nat.div_lt_iff_lt_mul (by omega)).mpr hn) hk')

/-- What a numeric escape writes: the digits, padded to full length where a digit follows. -/
structure Numeral (isDigit : Byte → Bool) (value : List Byte → ℕ) (width n : ℕ) (ds : List Byte) :
    Prop where
  digits : ∀ d ∈ ds, isDigit d = true
  value : value ds = n
  nonempty : ds ≠ []
  short : ds.length ≤ width

theorem numeral_hex (hn : n < 65536) : Numeral isxdigit hexValue 4 n (digits 16 n) := by
  obtain ⟨hall, hvalue, hne⟩ := digitsFrom_hex (Nat.lt_succ_self n)
  exact ⟨hall, hvalue, hne, length_digitsFrom (by decide) hn (by decide)⟩

theorem numeral_octal (hn : n < 512) : Numeral isodigit octalValue 3 n (digits 8 n) := by
  obtain ⟨hall, hvalue, hne⟩ := digitsFrom_octal (Nat.lt_succ_self n)
  exact ⟨hall, hvalue, hne, length_digitsFrom (by decide) hn (by decide)⟩

namespace Numeral
variable {isDigit : Byte → Bool} {value : List Byte → ℕ} {width : ℕ}

theorem pad (h : Numeral isDigit value width n ds) (hzero : isDigit (ascii '0') = true)
    (hvalue : ∀ k ds, value (List.replicate k (ascii '0') ++ ds) = value ds) :
    Numeral isDigit value width n (Wine.Registry.pad width ds) ∧
      (Wine.Registry.pad width ds).length = width := by
  have hshort := h.short
  have hlen : (Wine.Registry.pad width ds).length = width := by
    unfold Wine.Registry.pad
    rw [List.length_append, List.length_replicate]
    omega
  refine ⟨⟨fun d hd => ?_, ?_, ?_, Nat.le_of_eq hlen⟩, hlen⟩
  · obtain hd | hd := List.mem_append.mp hd
    · rw [List.eq_of_mem_replicate hd]
      exact hzero
    · exact h.digits d hd
  · exact (hvalue _ _).trans h.value
  · exact List.append_ne_nil_of_right_ne_nil _ h.nonempty

/-- The reader finds the digits if they are at full length or no digit follows. -/
theorem taken (h : Numeral isDigit value width n ds)
    (hend : ds.length = width ∨ isDigit (peek rest) = false ∧ rest ≠ []) :
    ((ds ++ rest).takeWhile isDigit).take width = ds := by
  rw [List.takeWhile_append_of_pos h.digits]
  obtain hlen | ⟨hstop, hne⟩ := hend
  · rw [← hlen, List.take_left']
    rfl
  · obtain ⟨r, rest, rfl⟩ := List.exists_cons_of_ne_nil hne
    rw [List.takeWhile_cons_of_neg (Bool.not_eq_true _ ▸ hstop), List.append_nil]
    exact List.take_of_length_le h.short

end Numeral

/-! ## One character -/

/-- A delimiter that no escape could take for one of its digits. -/
structure Closes (escape : Byte × Byte) (close : Byte) : Prop where
  escaped : close = escape.2
  pair : escape = quotes ∨ escape = brackets

variable {close : Byte}

/-- What a character is written as starts with a backslash, or is the character. -/
theorem dumpChar_head : dumpChar escape c str = [] ∧ c = 0 ∧ str = [] ∨
    dumpChar escape c str ≠ [] ∧ (peek (dumpChar escape c str) = ascii '\\' ∨
      32 ≤ c.toNat ∧ c.toNat < 128 ∧ c.setWidth 8 ≠ escape.2 ∧
        peek (dumpChar escape c str) = c.setWidth 8) := by
  unfold dumpChar
  split
  · right
    split
    · exact ⟨List.cons_ne_nil _ _, .inl rfl⟩
    · exact ⟨List.cons_ne_nil _ _, .inl rfl⟩
  split
  · split
    · next h => exact .inl ⟨rfl, h⟩
    · right
      split
      · exact ⟨List.cons_ne_nil _ _, .inl rfl⟩
      · split
        · exact ⟨List.cons_ne_nil _ _, .inl rfl⟩
        · exact ⟨List.cons_ne_nil _ _, .inl rfl⟩
  · right
    split
    · exact ⟨List.cons_ne_nil _ _, .inl rfl⟩
    · next h =>
      exact ⟨List.cons_ne_nil _ _, .inr ⟨by omega, by omega, fun he => h (.inr (.inr he)), rfl⟩⟩

theorem peek_append {p q : List Byte} (h : p ≠ []) : peek (p ++ q) = peek p := by
  cases p with
  | nil => exact absurd rfl h
  | cons a p => rfl

/-- The text that follows a character starts with a digit only if the writer saw it. -/
theorem peek_follow (isDigit : Byte → Bool) (hback : isDigit (ascii '\\') = false)
    (hclose : isDigit close = false)
    (h : isDigit (peek (dumpStrW escape str ++ close :: rest)) = true) :
    str ≠ [] ∧ (str.headD 0).toNat < 128 ∧ isDigit ((str.headD 0).setWidth 8) = true := by
  cases str with
  | nil => exact absurd h (Bool.not_eq_true _ ▸ hclose)
  | cons d str =>
    refine ⟨List.cons_ne_nil _ _, ?_⟩
    obtain ⟨hnil, -, rfl⟩ | ⟨hne, hhead⟩ := @dumpChar_head str d escape
    · rw [dumpStrW, hnil] at h
      exact absurd h (Bool.not_eq_true _ ▸ hclose)
    · rw [dumpStrW, List.append_assoc, peek_append hne] at h
      obtain hhead | ⟨-, hlt, -, hhead⟩ := hhead
      · rw [hhead, hback] at h
        cases h
      · rw [hhead] at h
        exact ⟨hlt, h⟩

theorem Closes.cases (h : Closes escape close) :
    escape = (ascii '"', ascii '"') ∧ close = ascii '"' ∨
    escape = (ascii '[', ascii ']') ∧ close = ascii ']' := by
  obtain ⟨rfl, rfl | rfl⟩ := h
  · exact .inl ⟨rfl, rfl⟩
  · exact .inr ⟨rfl, rfl⟩

theorem follow_ne_nil : dumpStrW escape str ++ close :: rest ≠ [] :=
  List.append_ne_nil_of_right_ne_nil _ (List.cons_ne_nil _ _)

/-- The escapes of control characters that have one of their own. -/
theorem lookup_escapes : ∀ n < 32, escapes.getD n 0 ≠ ascii '.' →
    cEscapes.lookup (escapes.getD n 0) = some (BitVec.ofNat 16 n) := by decide

/-- `parse_strW` reads a hexadecimal escape. -/
theorem parseChar_hex (h : Numeral isxdigit hexValue 4 c.toNat ds)
    (hend : ds.length = 4 ∨ isxdigit (peek rest) = false ∧ rest ≠ []) :
    parseChar (text "\\x" ++ ds ++ rest) = (c, rest) := by
  have htaken := h.taken hend
  have hx : parseEscape (ascii 'x' :: (ds ++ rest)) = (c, rest) := by
    unfold parseEscape
    have hlookup : cEscapes.lookup (peek (ascii 'x' :: (ds ++ rest))) = none := rfl
    have hpeek : peek (ascii 'x' :: (ds ++ rest)) = ascii 'x' := rfl
    rw [hlookup]
    dsimp only
    rw [if_pos hpeek, List.drop_one, List.tail_cons, htaken, if_neg h.nonempty, h.value,
      BitVec.ofNat_toNat, BitVec.setWidth_eq, Nat.add_comm, List.drop_succ_cons, List.drop_left']
    rfl
  exact hx

theorem lookup_isodigit (hd : isodigit d = true) : cEscapes.lookup d = none ∧ d ≠ ascii 'x' := by
  revert d
  decide

/-- `parse_strW` reads an octal escape. -/
theorem parseChar_octal (h : Numeral isodigit octalValue 3 c.toNat ds)
    (hend : ds.length = 3 ∨ isodigit (peek rest) = false ∧ rest ≠ []) :
    parseChar (ascii '\\' :: ds ++ rest) = (c, rest) := by
  have htaken := h.taken hend
  obtain ⟨d, ds', hds⟩ := List.exists_cons_of_ne_nil h.nonempty
  have hd : isodigit d = true := h.digits d (by rw [hds]; exact List.mem_cons_self)
  obtain ⟨hlookup, hx⟩ := lookup_isodigit hd
  have hpeek : peek (ds ++ rest) = d := by
    rw [hds]
    rfl
  have ho : parseEscape (ds ++ rest) = (c, rest) := by
    unfold parseEscape
    rw [hpeek, hlookup]
    dsimp only
    rw [if_neg hx, if_pos hd, htaken, h.value, BitVec.ofNat_toNat, BitVec.setWidth_eq,
      List.drop_left']
    rfl
  exact ho

theorem signExtend_ascii : ∀ n < 128, (BitVec.ofNat 8 n).signExtend 16 = BitVec.ofNat 16 n := by
  decide

/-- A character of one byte that stands for itself. -/
theorem signExtend_setWidth (hc : c.toNat < 128) : (c.setWidth 8).signExtend 16 = c := by
  have h := signExtend_ascii c.toNat hc
  rwa [BitVec.ofNat_toNat, BitVec.ofNat_toNat, BitVec.setWidth_eq] at h

/-- The characters that are written with a backslash before them are no letters or digits. -/
theorem parseEscape_special : ∀ d ∈ [ascii '\\', ascii '"', ascii '[', ascii ']'], ∀ rest,
    parseEscape (d :: rest) = (d.signExtend 16, rest) := by
  intro d hd rest
  simp only [List.mem_cons, List.not_mem_nil, or_false] at hd
  obtain rfl | rfl | rfl | rfl := hd <;> rfl

/-- `parse_strW` reads back what `dump_strW` writes for a character, whatever follows in the text. -/
theorem parseChar_dumpChar (hcl : Closes escape close) (hlast : ¬(c = 0 ∧ str = [])) :
    parseChar (dumpChar escape c str ++ (dumpStrW escape str ++ close :: rest)) =
      (c, dumpStrW escape str ++ close :: rest) := by
  have hcases := hcl.cases
  have hxclose : isxdigit close = false := by
    obtain ⟨-, rfl⟩ | ⟨-, rfl⟩ := hcases <;> decide
  have hoclose : isodigit close = false := by
    obtain ⟨-, rfl⟩ | ⟨-, rfl⟩ := hcases <;> decide
  have hne := @follow_ne_nil rest str escape close
  have hlt16 := c.isLt
  have hx := @peek_follow rest str escape close isxdigit (by decide) hxclose
  have ho := @peek_follow rest str escape close isodigit (by decide) hoclose
  generalize dumpStrW escape str ++ close :: rest = follow at hne hx ho ⊢
  unfold dumpChar
  split
  · -- a hexadecimal escape
    have hnum := numeral_hex hlt16
    split
    · obtain ⟨hpad, hlen⟩ := hnum.pad (by decide) fun _ _ => hexValue_zeros
      exact parseChar_hex hpad (.inl hlen)
    · next hno =>
      exact parseChar_hex hnum (.inr ⟨Bool.eq_false_iff.mpr fun h => hno (hx h), hne⟩)
  split
  · next hlow =>
    split
    · -- a C escape
      next hesc =>
      have hlookup := lookup_escapes c.toNat hlow hesc
      rw [BitVec.ofNat_toNat, BitVec.setWidth_eq] at hlookup
      have hparse : parseEscape (escapes.getD c.toNat 0 :: follow) = (c, follow) := by
        unfold parseEscape
        have hpeek : peek (escapes.getD c.toNat 0 :: follow) = escapes.getD c.toNat 0 := rfl
        rw [hpeek, hlookup]
        rfl
      exact hparse
    · -- an octal escape
      have hnum := numeral_octal (show c.toNat < 512 by omega)
      split
      · obtain ⟨hpad, hlen⟩ := hnum.pad (by decide) fun _ _ => octalValue_zeros
        exact parseChar_octal hpad (.inl hlen)
      · next hno =>
        refine parseChar_octal hnum (.inr ⟨Bool.eq_false_iff.mpr fun h => hno ?_, hne⟩)
        obtain ⟨hstr, hlt, hdigit⟩ := ho h
        refine ⟨hstr, ?_⟩
        unfold isodigit at hdigit
        rw [decide_eq_true_eq, BitVec.toNat_setWidth, Nat.mod_eq_of_lt (by omega)] at hdigit
        exact hdigit
  · next hlow =>
    have hc : c.toNat < 128 := by omega
    split
    · -- a backslash or a delimiter
      next hspecial =>
      have hmem : c.setWidth 8 ∈ [ascii '\\', ascii '"', ascii '[', ascii ']'] := by
        simp only [List.mem_cons, List.not_mem_nil, or_false]
        obtain ⟨rfl, -⟩ | ⟨rfl, -⟩ := hcases
        · obtain h | h | h := hspecial
          · exact .inl h
          · exact .inr (.inl h)
          · exact .inr (.inl h)
        · obtain h | h | h := hspecial
          · exact .inl h
          · exact .inr (.inr (.inl h))
          · exact .inr (.inr (.inr h))
      have hparse := parseEscape_special _ hmem follow
      rw [signExtend_setWidth hc] at hparse
      exact hparse
    · next hplain =>
      have hback : peek ([c.setWidth 8] ++ follow) ≠ ascii '\\' := fun h => hplain (.inl h)
      unfold parseChar
      rw [if_pos hback]
      exact Prod.ext (signExtend_setWidth hc) rfl

/-! ## Strings -/

/-- The string that is read back: the `NUL` at the end is the one that the reader adds. -/
def unterminated : List WChar → List WChar
  | [] => []
  | c :: str => if c = 0 ∧ str = [] then [] else c :: unterminated str

/-- The string with exactly one `NUL` at its end. -/
def terminated (s : List WChar) : List WChar := if s.getLast? = some 0 then s else s ++ [0]

theorem unterminated_append : unterminated str ++ [0] = terminated str := by
  induction str with
  | nil => rfl
  | cons c str ih =>
    unfold unterminated
    split
    · next h =>
      obtain ⟨rfl, rfl⟩ := h
      rfl
    · next h =>
      rw [List.cons_append, ih]
      unfold terminated
      cases str with
      | nil =>
        have hc : ¬ [c].getLast? = some 0 := fun heq => h ⟨Option.some.inj heq, rfl⟩
        rw [if_neg hc]
        rfl
      | cons d str =>
        rw [List.getLast?_cons_cons]
        split <;> rfl

/-- What is written does not start with the delimiter or with a `NUL`. -/
theorem peek_dumpChar (hcl : Closes escape close) (hlast : ¬(c = 0 ∧ str = [])) {follow : List Byte} :
    peek (dumpChar escape c str ++ follow) ≠ 0 ∧
      peek (dumpChar escape c str ++ follow) ≠ close := by
  have hback : ascii '\\' ≠ 0 ∧ ascii '\\' ≠ close := by
    obtain ⟨-, rfl⟩ | ⟨-, rfl⟩ := hcl.cases <;> decide
  obtain ⟨-, hc⟩ | ⟨hne, hhead | ⟨hge, hlt, hplain, hhead⟩⟩ := @dumpChar_head str c escape
  · exact absurd hc hlast
  · rw [peek_append hne, hhead]
    exact hback
  · rw [peek_append hne, hhead]
    refine ⟨fun h0 => ?_, hcl.escaped ▸ hplain⟩
    have hnat := congrArg BitVec.toNat h0
    rw [BitVec.toNat_setWidth, Nat.mod_eq_of_lt (by omega)] at hnat
    rw [hnat] at hge
    exact absurd hge (by decide)

theorem length_unterminated_le : (unterminated str).length ≤ (dumpStrW escape str).length := by
  induction str with
  | nil => exact Nat.le_refl _
  | cons c str ih =>
    unfold unterminated dumpStrW
    split
    · exact Nat.zero_le _
    · next h =>
      obtain ⟨-, hc⟩ | ⟨hne, -⟩ := @dumpChar_head str c escape
      · exact absurd hc h
      · have hpos := List.length_pos_iff.mpr hne
        rw [List.length_cons, List.length_append]
        omega

theorem parseLoop_dumpStrW (hcl : Closes escape close) {room : ℕ}
    (hfuel : (unterminated str).length < fuel) (hroom : 2 * (unterminated str).length ≤ room) :
    parseLoop close fuel room (dumpStrW escape str ++ close :: rest) =
      some (unterminated str, rest) := by
  have hend : ∀ fuel room, 0 < fuel →
      parseLoop close fuel room (close :: rest) = some ([], rest) := by
    intro fuel room hfuel
    obtain ⟨fuel, rfl⟩ := Nat.exists_eq_succ_of_ne_zero (Nat.pos_iff_ne_zero.mp hfuel)
    have hzero : close ≠ 0 := by
      obtain ⟨-, rfl⟩ | ⟨-, rfl⟩ := hcl.cases <;> decide
    unfold parseLoop
    have hpeek : peek (close :: rest) = close := rfl
    rw [hpeek, if_neg hzero, if_pos rfl]
    rfl
  induction str generalizing fuel room with
  | nil => exact hend fuel room hfuel
  | cons c str ih =>
    unfold dumpStrW
    by_cases hlast : c = 0 ∧ str = []
    · obtain ⟨rfl, rfl⟩ := hlast
      exact hend fuel room hfuel
    · have hstep : unterminated (c :: str) = c :: unterminated str := if_neg hlast
      rw [hstep, List.length_cons] at hfuel hroom
      obtain ⟨fuel, rfl⟩ := Nat.exists_eq_succ_of_ne_zero (Nat.ne_zero_of_lt hfuel)
      have hread := @parseChar_dumpChar rest str c escape close hcl hlast
      obtain ⟨hzero, hne⟩ := @peek_dumpChar str c escape close hcl hlast
        (dumpStrW escape str ++ close :: rest)
      rw [List.append_assoc, hstep]
      unfold parseLoop
      rw [if_neg hzero, if_neg hne, if_neg (by omega), hread,
        ih (by omega) (by omega)]
      rfl

/-- What `dump_strW` writes, `parse_strW` reads back up to the delimiter, whatever follows it. -/
theorem parseStrW_dumpStrW (s : List WChar) (rest : List Byte) (escape : Byte × Byte)
    (hescape : escape = quotes ∨ escape = brackets) (len : ℕ)
    (hlen : 2 * (terminated s).length ≤ len) :
    ∃ t, parseStrW len (dumpStrW escape s ++ escape.2 :: rest) escape.2 = some (t, rest) ∧
      t ++ [0] = terminated s := by
  rw [← unterminated_append, List.length_append, List.length_singleton] at hlen
  refine ⟨unterminated s, parseLoop_dumpStrW ⟨rfl, hescape⟩ ?_ (by omega), unterminated_append⟩
  have hle := @length_unterminated_le s escape
  rw [List.length_append, List.length_cons]
  omega

/-- A control character before a digit, a long and a short hexadecimal escape, an octal one. -/
theorem parseStrW_dumpStrW_sample : ∃ t, parseStrW 16
    (dumpStrW quotes [1, 0x37, 0x3b1, 0x66, 0x20ac, 0x22, 0] ++ ascii '"' :: text "=x")
      (ascii '"') = some (t, text "=x") ∧
    t ++ [0] = terminated [1, 0x37, 0x3b1, 0x66, 0x20ac, 0x22, 0] :=
  parseStrW_dumpStrW _ _ quotes (.inl rfl) 16 (by decide)

end Wine.Registry

import Wine.Crypt32.Bits

/-!
# Object identifiers

The encoder scans the components of the string with `sscanf`, and the decoder prints them with `sprintf`.
-/

namespace Wine.Crypt32

def asnObjectIdentifier : Byte := 0x06

def dot : Byte := 0x2e

/-! ## Scanning and printing -/

def isspace (c : Byte) : Bool := c = 32 ∨ 9 ≤ c.toNat ∧ c.toNat ≤ 13

def isdigit (c : Byte) : Bool := 48 ≤ c.toNat ∧ c.toNat ≤ 57

def digitsValue (ds : List Byte) : ℕ := ds.foldl (fun v d => v * 10 + (d.toNat - 48)) 0

/-- The conversion `%d`, with an `int` of 32 bits: the value, and what is left of the string. -/
def scanInt (p : List Byte) : Option (ℤ × List Byte) :=
  let q := p.dropWhile isspace
  let neg := q.head? = some 0x2d
  let q := if neg ∨ q.head? = some 0x2b then q.drop 1 else q
  let ds := q.takeWhile isdigit
  if ds = [] then none
  else if neg then some (max (-(digitsValue ds : ℤ)) (-2147483648), q.drop ds.length)
  else some (min (digitsValue ds : ℤ) 2147483647, q.drop ds.length)

/-- A number in decimal. -/
def decimal (n : ℕ) : List Byte :=
  (Nat.digits 10 (n / 10)).reverse.map (fun d => BitVec.ofNat 8 (48 + d)) ++
    [BitVec.ofNat 8 (48 + n % 10)]

/-- `%d` of an `int`. -/
def printInt (v : Dword) : List Byte :=
  if v.toInt < 0 then 0x2d :: decimal v.toInt.natAbs else decimal v.toInt.natAbs

/-! ## Encoding -/

/-- `sscanf(pszObjId, "%d.%d.%n", &val1, &val2, &firstPos)`, where `firstPos` stays 0 without the second
dot. -/
def scanFirst (p : List Byte) : Option (ℤ × ℤ × ℕ) := do
  let (val1, q) ← scanInt p
  if q.head? = some dot then
    let (val2, r) ← scanInt (q.drop 1)
    if r.head? = some dot then return (val1, val2, p.length - r.length + 1)
    else return (val1, val2, 0)
  else none

/-- The components that both loops scan; a component takes a character at least. -/
def scanComponents : ℕ → List Byte → Option (List ℤ)
  | _, [] => some []
  | 0, _ :: _ => none
  | fuel + 1, p => do
    let (val, q) ← scanInt p
    return val :: (← scanComponents fuel (if q.head? = some dot then q.drop 1 else q))

def numBytes (val : ℤ) : ℕ :=
  if 0x10000000 ≤ val then 5
  else if 0x200000 ≤ val then 4
  else if 0x4000 ≤ val then 3
  else if 0x80 ≤ val then 2
  else 1

/-- The loop that fills `outBytes`. -/
def septets : ℕ → ℤ → List Byte
  | 0, _ => []
  | n + 1, val => septets n (val / 128) ++ [BitVec.ofInt 8 (val % 128)]

def outBytes (val : ℤ) : List Byte :=
  (septets (numBytes val) val).dropLast.map (· ||| 0x80) ++
    (septets (numBytes val) val).getLast?.toList

/-- The first byte and the components behind it. -/
def scanOid (p : List Byte) : Option (Byte × List ℤ) := do
  let (val1, val2, firstPos) ← scanFirst p
  let vals ← scanComponents p.length (p.drop firstPos)
  return (BitVec.ofInt 8 (val1 * 40 + val2), vals)

/-- The rest of the encoder: the sizes, and the bytes unless it is a size query. -/
def putOid (needed : Dword) (contents : List Byte) (space : Option Dword) :
    Except EncodeFault Encoded :=
  let lenBytes := lenBytesNeeded needed
  let bytesNeeded := needed + (1 + BitVec.ofNat 32 lenBytes)
  match space with
  | none => .ok ⟨true, some bytesNeeded, []⟩
  | some size =>
    if size < bytesNeeded then .ok ⟨false, some bytesNeeded, []⟩
    else
      match encodeLen (bytesNeeded - 1 - BitVec.ofNat 32 lenBytes) (some lenBytes) with
      | none => .error .unwritten
      | some (_, bytes) => .ok ⟨true, some bytesNeeded, asnObjectIdentifier :: (bytes ++ contents)⟩

/-- `CRYPT_AsnEncodeOid`, where `pszObjId` may be `NULL`. -/
def encodeOid (pszObjId : Option (List Byte)) (space : Option Dword) : Except EncodeFault Encoded :=
  match pszObjId with
  | none => putOid 0 [] space
  | some p =>
    match scanOid p with
    | none => .ok ⟨false, none, []⟩
    | some (firstByte, vals) =>
      putOid (BitVec.ofNat 32 (1 + (vals.map numBytes).sum)) (firstByte :: vals.flatMap outBytes) space

/-! ## Decoding -/

/-- The loops over the bytes of the components; `val` is the component that has begun. -/
def decodeComponents (data : List Byte) : ℕ → ℕ → Option Dword → Except DecodeError (List Dword)
  | 0, _, none => .ok []
  | 0, _, some _ => .error .corrupt
  | n + 1, i, val => do
    let b ← readByte data i
    let next := (val.getD 0 <<< 7) ||| (b &&& 0x7f).setWidth 32
    if b &&& 0x80 ≠ 0 then decodeComponents data n (i + 1) (some next)
    else return next :: (← decodeComponents data n (i + 1) none)

/-- The first two components of the string. -/
def printFirst (b : Byte) : List Byte := decimal (b.toNat / 40) ++ dot :: decimal (b.toNat % 40)

/-- `strlen(str)` after `snprintf(str, size, ...)`. -/
def snprintfLen (size : ℕ) (s : List Byte) : ℕ := min (size - 1) s.length

/-- `CRYPT_AsnDecodeOidInternal`: the size, and the string (`none` for `NULL`) unless it is a size
query. -/
def decodeOid (data : List Byte) (cbEncoded : Dword) (space : Option Dword) :
    Except DecodeError (Dword × Option (Option (List Byte))) := do
  if (← readByte data 0) = asnObjectIdentifier then
    let dataLen ← getLen data cbEncoded
    let lenBytes := getLenBytes (← readByte data 1)
    if dataLen = 0 then
      match space with
      | none => return (4, none)
      | some space => if space < 4 then .error (.moreData 4) else return (4, some none)
    else
      let b ← readByte data (1 + lenBytes)
      let vals ← decodeComponents data (dataLen.toNat - 1) (2 + lenBytes) none
      let bytesNeeded : Dword := BitVec.ofNat 32 (4 + snprintfLen 6 (printFirst b) + 1 +
        (vals.map fun val => snprintfLen 9 (dot :: printInt val)).sum)
      match space with
      | none => return (bytesNeeded, none)
      | some space =>
        if space < bytesNeeded then .error (.moreData bytesNeeded)
        else return (bytesNeeded,
          some (some (printFirst b ++ vals.flatMap fun val => dot :: printInt val)))
  else .error .badTag

/-! ## The standard -/

/-- A number in groups of seven bits, where all bytes but the last one have the top bit. -/
def base128 (n : ℕ) : List Byte :=
  (Nat.digits 128 (n / 128)).reverse.map (fun d => BitVec.ofNat 8 (128 + d)) ++
    [BitVec.ofNat 8 (n % 128)]

/-- The contents of the encoding of an object identifier. -/
def oidContent (first second : ℕ) (others : List ℕ) : List Byte :=
  base128 (first * 40 + second) ++ others.flatMap base128

def derOid (first second : ℕ) (others : List ℕ) : List Byte :=
  asnObjectIdentifier :: (derLength (oidContent first second others).length ++
    oidContent first second others)

/-- The object identifier with dots. -/
def dotted (first second : ℕ) (others : List ℕ) : List Byte :=
  decimal first ++ dot :: (decimal second ++ others.flatMap fun n => dot :: decimal n)

/-- The string is encoded in the size announced, and the decoder announces and gives the string. -/
structure CodesOid (s der : List Byte) : Prop where
  query : ∃ c : Dword, c.toNat = der.length ∧ encodeOid (some s) none = .ok ⟨true, some c, []⟩
  encode : ∀ size : Dword, ∃ c : Dword, c.toNat = der.length ∧ encodeOid (some s) (some size) =
    .ok (if der.length ≤ size.toNat then ⟨true, some c, der⟩ else ⟨false, some c, []⟩)
  decode : ∃ needed : Dword, needed.toNat = 4 + s.length + 1 ∧
    decodeOid der (BitVec.ofNat 32 der.length) none = .ok (needed, none) ∧
    ∀ size, needed ≤ size →
      decodeOid der (BitVec.ofNat 32 der.length) (some size) = .ok (needed, some (some s))

/-- Which object identifiers make the round trip. -/
structure OidFits (first second : ℕ) (others : List ℕ) : Prop where
  three : others ≠ []
  narrow : first ≤ 1 ∨ second < 40
  short : ∀ n ∈ others, n < 10 ^ 7
  length : (dotted first second others).length + 5 < 2 ^ 32

variable {data bytes rest p tail : List Byte} {first second n m k : ℕ} {others : List ℕ}

/-! ## Decimal numbers -/

theorem isdigit_ofNat (h : n < 10) : isdigit (BitVec.ofNat 8 (48 + n)) = true := by
  interval_cases n <;> rfl

theorem toNat_digit (h : n < 10) : (BitVec.ofNat 8 (48 + n)).toNat - 48 = n := by
  rw [BitVec.toNat_ofNat]
  omega

theorem isdigit_decimal {c : Byte} (h : c ∈ decimal n) : isdigit c = true := by
  obtain h | h := List.mem_append.mp h
  · obtain ⟨d, hd, rfl⟩ := List.mem_map.mp h
    exact isdigit_ofNat (Nat.digits_lt_base (by decide) (List.mem_reverse.mp hd))
  · obtain rfl := List.mem_singleton.mp h
    exact isdigit_ofNat (Nat.mod_lt _ (by decide))

theorem decimal_ne_nil (n : ℕ) : decimal n ≠ [] := List.append_ne_nil_of_right_ne_nil _ (List.cons_ne_nil _ _)

theorem digitsValue_decimal (n : ℕ) : digitsValue (decimal n) = n := by
  have hfold (ds : List ℕ) (hds : ∀ d ∈ ds, d < 10) :
      digitsValue (ds.reverse.map fun d => BitVec.ofNat 8 (48 + d)) = Nat.ofDigits 10 ds := by
    induction ds with
    | nil => rfl
    | cons d ds ih =>
      have ih := ih fun x hx => hds x (List.mem_cons_of_mem _ hx)
      unfold digitsValue at ih ⊢
      rw [List.reverse_cons, List.map_append, List.foldl_append, ih, List.map_singleton, List.foldl_cons,
        List.foldl_nil, toNat_digit (hds d List.mem_cons_self), Nat.ofDigits_cons]
      omega
  have hdigits := hfold (Nat.digits 10 (n / 10)) fun d hd => Nat.digits_lt_base (by decide) hd
  unfold digitsValue at hdigits ⊢
  rw [decimal, List.foldl_append, hdigits, Nat.ofDigits_digits, List.foldl_cons, List.foldl_nil,
    toNat_digit (Nat.mod_lt _ (by decide))]
  omega

/-- Scanning a number that no digit follows. -/
theorem scanInt_decimal (hn : n < 2 ^ 31) (htail : ∀ c ∈ tail.head?, isdigit c = false) :
    scanInt (decimal n ++ tail) = some ((n : ℤ), tail) := by
  obtain ⟨c, cs, hc⟩ := List.exists_cons_of_ne_nil (decimal_ne_nil n)
  have hdigit : isdigit c = true := isdigit_decimal (n := n) (by rw [hc]; exact List.mem_cons_self)
  have hrange : 48 ≤ c.toNat ∧ c.toNat ≤ 57 := by
    unfold isdigit at hdigit
    exact of_decide_eq_true hdigit
  have hspace : isspace c = false := by
    unfold isspace
    apply decide_eq_false
    rintro (h | h)
    · rw [h] at hrange
      exact absurd hrange.1 (by decide)
    · omega
  have hdrop : (decimal n ++ tail).dropWhile isspace = decimal n ++ tail := by
    rw [hc, List.cons_append, List.dropWhile_cons_of_neg (by rw [hspace]; exact Bool.false_ne_true)]
  have hhead : (decimal n ++ tail).head? = some c := by
    rw [hc, List.cons_append, List.head?_cons]
  have hneg : ¬some c = some 0x2d := by
    rintro h
    rw [Option.some.inj h] at hrange
    exact absurd hrange.1 (by decide)
  have hplus : ¬some c = some 0x2b := by
    rintro h
    rw [Option.some.inj h] at hrange
    exact absurd hrange.1 (by decide)
  have htake : (decimal n ++ tail).takeWhile isdigit = decimal n := by
    rw [List.takeWhile_append_of_pos fun x hx => isdigit_decimal hx]
    cases tail with
    | nil => rw [List.takeWhile_nil, List.append_nil]
    | cons x tail =>
      rw [List.takeWhile_cons_of_neg (by rw [htail x rfl]; exact Bool.false_ne_true), List.append_nil]
  unfold scanInt
  rw [hdrop]
  dsimp only
  rw [hhead, if_neg (not_or.mpr ⟨hneg, hplus⟩), htake, if_neg (decimal_ne_nil n), if_neg hneg,
    digitsValue_decimal, List.drop_left, min_eq_left (by omega)]

/-- Components with dots between them. -/
def joined (n : ℕ) (ns : List ℕ) : List Byte := decimal n ++ ns.flatMap fun m => dot :: decimal m

theorem joined_cons (n m : ℕ) (ns : List ℕ) :
    joined n (m :: ns) = decimal n ++ dot :: joined m ns := by
  rw [joined, List.flatMap_cons, joined, List.cons_append]

theorem scanInt_joined (hn : n < 2 ^ 31) (ns : List ℕ) :
    scanInt (joined n ns) = some ((n : ℤ), ns.flatMap fun m => dot :: decimal m) := by
  refine scanInt_decimal hn fun c hc => ?_
  cases ns with
  | nil => exact nomatch hc
  | cons m ns =>
    obtain rfl := Option.some.inj hc
    rfl

theorem scanComponents_joined (ns : List ℕ) (hn : n < 2 ^ 31) (hns : ∀ m ∈ ns, m < 2 ^ 31) (fuel : ℕ)
    (hfuel : ns.length < fuel) :
    scanComponents fuel (joined n ns) = some ((n :: ns).map fun m : ℕ => (m : ℤ)) := by
  induction ns generalizing n fuel with
  | nil =>
    obtain ⟨fuel, rfl⟩ := Nat.exists_eq_succ_of_ne_zero (Nat.ne_of_gt hfuel)
    have hscan := scanInt_joined hn []
    rw [joined, List.flatMap_nil, List.append_nil] at hscan ⊢
    obtain ⟨c, cs, hc⟩ := List.exists_cons_of_ne_nil (decimal_ne_nil n)
    rw [hc] at hscan ⊢
    rw [scanComponents, hscan]
    · cases fuel <;> rfl
    · exact nofun
  | cons m ns ih =>
    obtain ⟨fuel, rfl⟩ := Nat.exists_eq_succ_of_ne_zero (Nat.ne_of_gt (Nat.zero_lt_of_lt hfuel))
    have hscan := scanInt_joined hn (m :: ns)
    have hrest := ih (hns m List.mem_cons_self) (fun x hx => hns x (List.mem_cons_of_mem _ hx)) fuel
      (Nat.lt_of_succ_lt_succ hfuel)
    obtain ⟨c, cs, hc⟩ := List.exists_cons_of_ne_nil (decimal_ne_nil n)
    rw [joined, hc, List.cons_append] at hscan ⊢
    rw [scanComponents, hscan]
    · change (scanComponents fuel (joined m ns) >>= fun vals => some ((n : ℤ) :: vals)) = _
      rw [hrest]
      rfl
    · exact nofun

theorem dotted_eq (first second : ℕ) (others : List ℕ) :
    dotted first second others = joined first (second :: others) := by
  rw [joined_cons]
  rfl

theorem length_lt_joined (n : ℕ) (ns : List ℕ) : ns.length < (joined n ns).length := by
  have hpos := List.length_pos_iff.mpr (decimal_ne_nil n)
  rw [joined, List.length_append]
  suffices h : ns.length ≤ (ns.flatMap fun m => dot :: decimal m).length by omega
  induction ns with
  | nil => exact Nat.le_refl 0
  | cons m ns ih =>
    rw [List.flatMap_cons, List.length_append, List.length_cons, List.length_cons]
    omega

theorem scanFirst_two (hfirst : first < 2 ^ 31) (hsecond : second < 2 ^ 31) :
    scanFirst (joined first [second]) = some ((first : ℤ), (second : ℤ), 0) := by
  unfold scanFirst
  rw [scanInt_joined hfirst]
  change Option.bind (scanInt (joined second [])) _ = _
  rw [scanInt_joined hsecond]
  rfl

/-- Behind the second dot lie the other components. -/
theorem scanFirst_more (hfirst : first < 2 ^ 31) (hsecond : second < 2 ^ 31) (n : ℕ) (ns : List ℕ) :
    ∃ firstPos, scanFirst (joined first (second :: n :: ns)) = some ((first : ℤ), (second : ℤ), firstPos) ∧
      (joined first (second :: n :: ns)).drop firstPos = joined n ns := by
  have hsplit : joined first (second :: n :: ns) =
      (decimal first ++ dot :: (decimal second ++ [dot])) ++ joined n ns := by
    rw [joined_cons, joined_cons, List.append_assoc, List.cons_append, List.append_assoc,
      List.singleton_append]
  have hrest : (n :: ns).flatMap (fun m => dot :: decimal m) = dot :: joined n ns := rfl
  refine ⟨(joined first (second :: n :: ns)).length -
    ((n :: ns).flatMap fun m => dot :: decimal m).length + 1, ?_, ?_⟩
  · unfold scanFirst
    rw [scanInt_joined hfirst]
    change Option.bind (scanInt (joined second (n :: ns))) _ = _
    rw [scanInt_joined hsecond]
    rfl
  · rw [hsplit, hrest]
    apply List.drop_left'
    simp only [List.length_append, List.length_cons]
    omega

theorem scanOid_of_first {p : List Byte} {firstPos : ℕ} {vals : List ℤ}
    (hfirst : scanFirst p = some ((first : ℤ), (second : ℤ), firstPos))
    (hvals : scanComponents p.length (p.drop firstPos) = some vals) :
    scanOid p = some (BitVec.ofNat 8 (first * 40 + second), vals) := by
  unfold scanOid
  rw [hfirst]
  change Option.bind (scanComponents p.length (p.drop firstPos)) _ = _
  rw [hvals, ← BitVec.ofInt_natCast]
  rfl

theorem scanOid_dotted (hfirst : first < 2 ^ 31) (hsecond : second < 2 ^ 31)
    (hothers : ∀ n ∈ others, n < 2 ^ 31) :
    scanOid (dotted first second others) = some (BitVec.ofNat 8 (first * 40 + second),
      (if others = [] then [first, second] else others).map fun n : ℕ => (n : ℤ)) := by
  rw [dotted_eq]
  cases others with
  | nil =>
    rw [if_pos rfl]
    refine scanOid_of_first (scanFirst_two hfirst hsecond) ?_
    rw [List.drop_zero]
    exact scanComponents_joined [second] hfirst (by simpa using hsecond) _ (length_lt_joined first [second])
  | cons n ns =>
    rw [if_neg (List.cons_ne_nil _ _)]
    obtain ⟨firstPos, hscan, hdrop⟩ := scanFirst_more hfirst hsecond n ns
    refine scanOid_of_first hscan ?_
    rw [hdrop]
    refine scanComponents_joined ns (hothers n List.mem_cons_self)
      (fun x hx => hothers x (List.mem_cons_of_mem _ hx)) _ ?_
    have hlt := length_lt_joined first (second :: n :: ns)
    rw [List.length_cons, List.length_cons] at hlt
    omega

/-! ## Groups of seven bits -/

theorem septets_eq (h : (Nat.digits 128 n).length = k) :
    septets k n = (Nat.digits 128 n).reverse.map (BitVec.ofNat 8) := by
  induction k generalizing n with
  | zero =>
    rw [List.length_eq_zero_iff.mp h]
    rfl
  | succ k ih =>
    have hpos : 0 < n := by
      by_contra hzero
      rw [Nat.eq_zero_of_not_pos hzero, Nat.digits_zero] at h
      exact nomatch h
    have hdigits := Nat.digits_def' (b := 128) (by decide) hpos
    rw [hdigits, List.length_cons] at h
    rw [septets, hdigits, List.reverse_cons, List.map_append]
    have hdiv : (n : ℤ) / 128 = (n / 128 : ℕ) := rfl
    have hmod : (n : ℤ) % 128 = (n % 128 : ℕ) := rfl
    rw [hdiv, hmod, ih (Nat.succ.inj h), BitVec.ofInt_natCast]
    rfl

theorem numBytes_eq (hn : n < 2 ^ 31) : numBytes n = (Nat.digits 128 (n / 128)).length + 1 := by
  have hupper := fun k => Nat.digits_length_le_iff (b := 128) (k := k) (by decide) (n / 128)
  have h1 : (Nat.digits 128 (n / 128)).length ≤ 0 ↔ n / 128 < 1 := hupper 0
  have h2 : (Nat.digits 128 (n / 128)).length ≤ 1 ↔ n / 128 < 128 := hupper 1
  have h3 : (Nat.digits 128 (n / 128)).length ≤ 2 ↔ n / 128 < 16384 := hupper 2
  have h4 : (Nat.digits 128 (n / 128)).length ≤ 3 ↔ n / 128 < 2097152 := hupper 3
  have h5 : (Nat.digits 128 (n / 128)).length ≤ 4 ↔ n / 128 < 268435456 := hupper 4
  unfold numBytes
  split_ifs <;> omega

theorem length_base128 (n : ℕ) : (base128 n).length = (Nat.digits 128 (n / 128)).length + 1 := by
  rw [base128, List.length_append, List.length_map, List.length_reverse, List.length_singleton]

theorem outBytes_eq (hn : n < 2 ^ 31) : outBytes n = base128 n := by
  have hor : ∀ d < 128, BitVec.ofNat 8 d ||| 0x80 = BitVec.ofNat 8 (128 + d) := by decide
  have hdiv : (n : ℤ) / 128 = (n / 128 : ℕ) := rfl
  have hmod : (n : ℤ) % 128 = (n % 128 : ℕ) := rfl
  rw [outBytes, numBytes_eq hn, septets, hdiv, hmod, septets_eq rfl, List.dropLast_concat,
    List.getLast?_concat, Option.toList_some, BitVec.ofInt_natCast, List.map_map, base128]
  congr 1
  apply List.map_congr_left
  intro d hd
  exact hor d (Nat.digits_lt_base (by decide) (List.mem_reverse.mp hd))

/-! ## Encoding -/

/-- The contents that the encoder writes. -/
def oidBytes (first second : ℕ) (others : List ℕ) : List Byte :=
  BitVec.ofNat 8 (first * 40 + second) ::
    (if others = [] then [first, second] else others).flatMap base128

theorem putOid_query {contents : List Byte} (hfit : contents.length + 6 < 2 ^ 32) :
    ∃ c : Dword, c.toNat = 1 + (derLength contents.length).length + contents.length ∧
      putOid (BitVec.ofNat 32 contents.length) contents none = .ok ⟨true, some c, []⟩ ∧
      ∀ size, putOid (BitVec.ofNat 32 contents.length) contents (some size) =
        .ok (if size < c then ⟨false, some c, []⟩ else ⟨true, some c,
          asnObjectIdentifier :: (derLength contents.length ++ contents)⟩) := by
  have hshort : (derLength contents.length).length ≤ 5 := derLength_length_le (by omega)
  have hneeded := lenBytesNeeded_ofNat (m := contents.length) (by omega)
  have hlen := encodeLen_ofNat (m := contents.length) (by omega)
  obtain ⟨c, hc⟩ : ∃ c, BitVec.ofNat 32 contents.length +
    (1 + BitVec.ofNat 32 (derLength contents.length).length) = c := ⟨_, rfl⟩
  have hback : c - 1 - BitVec.ofNat 32 (derLength contents.length).length =
      BitVec.ofNat 32 contents.length := by
    rw [← hc]
    bv_omega
  refine ⟨c, ?_, ?_, fun size => ?_⟩
  · rw [← hc]
    bv_omega
  · rw [putOid, hneeded, hc]
  · rw [putOid, hneeded, hc, hback, hlen]
    split <;> rfl

theorem encodeOid_dotted (hfirst : first < 2 ^ 31) (hsecond : second < 2 ^ 31)
    (hothers : ∀ n ∈ others, n < 2 ^ 31) (space : Option Dword) :
    encodeOid (some (dotted first second others)) space =
      putOid (BitVec.ofNat 32 (oidBytes first second others).length) (oidBytes first second others)
        space := by
  obtain ⟨comps, hcomps⟩ : ∃ comps, (if others = [] then [first, second] else others) = comps :=
    ⟨_, rfl⟩
  have hall : ∀ n ∈ comps, n < 2 ^ 31 := by
    intro n hn
    rw [← hcomps] at hn
    split at hn
    · obtain h | h := List.mem_pair.mp hn <;> omega
    · exact hothers n hn
  have hbytes : (comps.map fun n : ℕ => (n : ℤ)).flatMap outBytes = comps.flatMap base128 := by
    rw [List.flatMap_map]
    exact List.flatMap_congr fun n hn => outBytes_eq (hall n hn)
  have hsum : ((comps.map fun n : ℕ => (n : ℤ)).map numBytes).sum = (comps.flatMap base128).length := by
    rw [List.map_map, List.length_flatMap]
    congr 1
    refine List.map_congr_left fun n hn => ?_
    exact (numBytes_eq (hall n hn)).trans (length_base128 n).symm
  rw [encodeOid, scanOid_dotted hfirst hsecond hothers, hcomps]
  dsimp only
  rw [hbytes, hsum, oidBytes, hcomps, List.length_cons, Nat.add_comm 1]

/-! ## Decoding -/

theorem septet_or {d : ℕ} (z : ℕ) (hd : d < 128) :
    (BitVec.ofNat 32 z <<< 7) ||| BitVec.ofNat 32 d = BitVec.ofNat 32 (z * 128 + d) := by
  have hand : (BitVec.ofNat 32 z <<< 7) &&& BitVec.ofNat 32 d = 0#32 := by
    refine BitVec.eq_of_getLsbD_eq fun i _ => ?_
    rw [BitVec.getLsbD_and, BitVec.getLsbD_shiftLeft, BitVec.getLsbD_zero]
    by_cases hi : i < 7
    · simp [hi]
    · have hbit : (BitVec.ofNat 32 d).getLsbD i = false := by
        rw [BitVec.getLsbD_ofNat, Nat.testBit_lt_two_pow, Bool.and_false]
        exact Nat.lt_of_lt_of_le hd (Nat.pow_le_pow_right (by decide : 0 < 2) (Nat.not_lt.mp hi))
      rw [hbit, Bool.and_false]
  rw [← BitVec.add_eq_or_of_and_eq_zero _ _ hand, BitVec.shiftLeft_eq_mul_twoPow, BitVec.ofNat_add,
    BitVec.ofNat_mul]
  rfl

/-- Reading one component. -/
theorem decodeComponents_groups (ds : List ℕ) (hds : ∀ d ∈ ds, d < 128) (hm : m < 128) (z i : ℕ)
    (val : Option Dword) (hval : val.getD 0 = BitVec.ofNat 32 z)
    (hdata : data.drop i = ds.map (fun d => BitVec.ofNat 8 (128 + d)) ++ BitVec.ofNat 8 m :: tail) :
    decodeComponents data (ds.length + 1 + k) i val =
      decodeComponents data k (i + ds.length + 1) none >>= fun vals =>
        .ok (BitVec.ofNat 32 (ds.foldl (fun v d => v * 128 + d) z * 128 + m) :: vals) := by
  have hmask : ∀ d < 128, (BitVec.ofNat 8 (128 + d) &&& 0x7f).setWidth 32 = BitVec.ofNat 32 d ∧
      (BitVec.ofNat 8 d &&& 0x7f).setWidth 32 = BitVec.ofNat 32 d ∧
      BitVec.ofNat 8 (128 + d) &&& 0x80 ≠ 0 ∧ BitVec.ofNat 8 d &&& 0x80 = 0 := by decide
  have hread (b : Byte) (bs : List Byte) (h : data.drop i = b :: bs) : readByte data i = .ok b := by
    have hget := @List.getElem?_drop _ data i 0
    rw [h, Nat.add_zero] at hget
    exact readByte_eq hget.symm
  induction ds generalizing i z val with
  | nil =>
    rw [List.length_nil, Nat.zero_add, Nat.add_comm 1 k, decodeComponents, hread _ _ hdata, ok_bind]
    dsimp only
    rw [if_neg (not_not.mpr (hmask m hm).2.2.2), (hmask m hm).2.1, hval, septet_or z hm]
    rfl
  | cons d ds ih =>
    have hd := hds d List.mem_cons_self
    have hnext : data.drop (i + 1) =
        ds.map (fun d => BitVec.ofNat 8 (128 + d)) ++ BitVec.ofNat 8 m :: tail := by
      rw [← List.tail_drop, hdata]
      rfl
    rw [List.length_cons, show ds.length + 1 + 1 + k = ds.length + 1 + k + 1 by omega, decodeComponents,
      hread _ _ hdata, ok_bind]
    dsimp only
    rw [if_pos (hmask d hd).2.2.1, (hmask d hd).1, hval, septet_or z hd,
      ih (fun x hx => hds x (List.mem_cons_of_mem _ hx)) _ _ _ rfl hnext (fun b bs h => ?_),
      List.foldl_cons, show i + 1 + ds.length + 1 = i + (ds.length + 1) + 1 by omega]
    have hget := @List.getElem?_drop _ data (i + 1) 0
    rw [h, Nat.add_zero] at hget
    exact readByte_eq hget.symm

theorem decodeComponents_base128 (i : ℕ) (hdata : data.drop i = base128 n ++ tail) :
    decodeComponents data ((base128 n).length + k) i none =
      decodeComponents data k (i + (base128 n).length) none >>= fun vals =>
        .ok (BitVec.ofNat 32 n :: vals) := by
  obtain ⟨ds, hds⟩ : ∃ ds, (Nat.digits 128 (n / 128)).reverse = ds := ⟨_, rfl⟩
  have hlt : ∀ d ∈ ds, d < 128 := by
    intro d hd
    rw [← hds] at hd
    exact Nat.digits_lt_base (by decide) (List.mem_reverse.mp hd)
  have hlen : (base128 n).length = ds.length + 1 := by
    rw [length_base128, ← hds, List.length_reverse]
  have hfold : ds.foldl (fun v d => v * 128 + d) 0 = n / 128 := by
    rw [← hds, List.foldl_reverse]
    have h := Nat.ofDigits_digits 128 (n / 128)
    rw [Nat.ofDigits_eq_foldr] at h
    refine Eq.trans ?_ h
    congr 1
    funext d v
    rw [Nat.cast_id]
    ring
  rw [base128, hds, List.append_assoc] at hdata
  rw [hlen, decodeComponents_groups ds hlt (Nat.mod_lt n (by decide)) 0 i none rfl hdata, hfold,
    Nat.div_add_mod', Nat.add_assoc]

theorem decodeComponents_spec (ns : List ℕ) (i : ℕ) (hdata : data.drop i = ns.flatMap base128) :
    decodeComponents data (ns.flatMap base128).length i none = .ok (ns.map (BitVec.ofNat 32)) := by
  induction ns generalizing i with
  | nil => rfl
  | cons n ns ih =>
    rw [List.flatMap_cons] at hdata
    have hnext : data.drop (i + (base128 n).length) = ns.flatMap base128 := by
      rw [← List.drop_drop, hdata, List.drop_left]
    rw [List.flatMap_cons, List.length_append, decodeComponents_base128 i hdata, ih _ hnext]
    rfl

theorem printInt_ofNat (hn : n < 2 ^ 31) : printInt (BitVec.ofNat 32 n) = decimal n := by
  have hint : (BitVec.ofNat 32 n).toInt = n := by
    have hnat : (BitVec.ofNat 32 n).toNat = n := by
      rw [BitVec.toNat_ofNat]
      omega
    rw [BitVec.toInt_eq_toNat_of_lt (by omega), hnat]
  rw [printInt, hint, if_neg (by omega), Int.natAbs_natCast]

/-- What the decoder announces. -/
def oidNeeded (n : ℕ) (others : List ℕ) : ℕ :=
  4 + snprintfLen 6 (decimal (n / 40) ++ dot :: decimal (n % 40)) + 1 +
    (others.map fun m => snprintfLen 9 (dot :: decimal m)).sum

/-- The string that the decoder gives. -/
def oidText (n : ℕ) (others : List ℕ) : List Byte := dotted (n / 40) (n % 40) others

/-- What the decoder makes of a first byte and components. -/
theorem decodeOid_eq (hbyte : n < 256) (hothers : ∀ n ∈ others, n < 2 ^ 31)
    (hlt : (others.flatMap base128).length + 7 < 2 ^ 32)
    (hbytes : bytes = BitVec.ofNat 8 n :: others.flatMap base128)
    (hdata : data = asnObjectIdentifier :: (derLength bytes.length ++ bytes)) :
    decodeOid data (BitVec.ofNat 32 data.length) none =
      .ok (BitVec.ofNat 32 (oidNeeded n others), none) ∧
    ∀ size, decodeOid data (BitVec.ofNat 32 data.length) (some size) =
      if size < BitVec.ofNat 32 (oidNeeded n others) then
        .error (.moreData (BitVec.ofNat 32 (oidNeeded n others)))
      else .ok (BitVec.ofNat 32 (oidNeeded n others), some (some (oidText n others))) := by
  have hcount : bytes.length = (others.flatMap base128).length + 1 := by
    rw [hbytes, List.length_cons]
  have hshort : (derLength bytes.length).length ≤ 5 := derLength_length_le (by omega)
  have hlength : data.length < 2 ^ 32 := by
    rw [hdata, List.length_cons, List.length_append]
    omega
  obtain ⟨htag, hlen, ⟨b, hb, hfirst⟩, hdrop⟩ := getLen_derLength (Nat.le_refl _) hlength hdata
  have hne : ¬BitVec.ofNat 32 bytes.length = 0 := by
    intro hzero
    have hnat := congrArg BitVec.toNat hzero
    rw [BitVec.toNat_ofNat, Nat.mod_eq_of_lt (by omega)] at hnat
    exact absurd (hnat.symm.trans hcount) (by simp)
  have hcomps : (BitVec.ofNat 32 bytes.length).toNat - 1 = (others.flatMap base128).length := by
    rw [BitVec.toNat_ofNat, Nat.mod_eq_of_lt (by omega), hcount, Nat.add_sub_cancel]
  have hread : readByte data (1 + (derLength bytes.length).length) = .ok (BitVec.ofNat 8 n) := by
    have hget := @List.getElem?_drop _ data (1 + (derLength bytes.length).length) 0
    rw [hdrop, Nat.add_zero] at hget
    exact readByte_eq (hget.symm.trans (by rw [hbytes, List.getElem?_cons_zero]))
  have hnext : data.drop (2 + (derLength bytes.length).length) = others.flatMap base128 := by
    rw [show 2 + (derLength bytes.length).length = 1 + (derLength bytes.length).length + 1 by omega,
      ← List.drop_drop, hdrop, hbytes]
    rfl
  have hnat : (BitVec.ofNat 8 n).toNat = n := by
    rw [BitVec.toNat_ofNat]
    omega
  have hvals := decodeComponents_spec others _ hnext
  have hsizes : (others.map (BitVec.ofNat 32)).map (fun val => snprintfLen 9 (dot :: printInt val)) =
      others.map fun m => snprintfLen 9 (dot :: decimal m) := by
    rw [List.map_map]
    refine List.map_congr_left fun m hm => ?_
    rw [Function.comp_apply, printInt_ofNat (hothers m hm)]
  have htext : (others.map (BitVec.ofNat 32)).flatMap (fun val => dot :: printInt val) =
      others.flatMap fun m => dot :: decimal m := by
    rw [List.flatMap_map]
    refine List.flatMap_congr fun m hm => ?_
    rw [printInt_ofNat (hothers m hm)]
  unfold decodeOid
  simp only [htag, ok_bind, hlen, hb, hfirst, if_true, if_neg hne, hread, hcomps, hvals, hsizes, htext,
    printFirst, hnat]
  refine ⟨rfl, fun size => ?_⟩
  rw [oidText, dotted, List.append_assoc, List.cons_append]
  rfl

/-! ## Sizes -/

theorem length_decimal (n : ℕ) : (decimal n).length = (Nat.digits 10 (n / 10)).length + 1 := by
  rw [decimal, List.length_append, List.length_map, List.length_reverse, List.length_singleton]

theorem base128_length_le (n : ℕ) : (base128 n).length ≤ (decimal n).length := by
  rw [length_base128, length_decimal]
  apply Nat.succ_le_succ
  obtain ⟨k, hk⟩ : ∃ k, (Nat.digits 10 (n / 10)).length = k := ⟨_, rfl⟩
  have hupper := (Nat.digits_length_le_iff (b := 10) (k := k) (by decide) (n / 10)).mp (Nat.le_of_eq hk)
  rw [hk, Nat.digits_length_le_iff (by decide)]
  calc n / 128 ≤ n / 10 := Nat.div_le_div_left (by decide) (by decide)
    _ < 10 ^ k := hupper
    _ ≤ 128 ^ k := Nat.pow_le_pow_left (by decide) k

theorem snprintfLen_component (m : ℕ) : snprintfLen 9 (dot :: decimal m) ≤ (dot :: decimal m).length ∧
    (snprintfLen 9 (dot :: decimal m) = (dot :: decimal m).length ↔ m < 10 ^ 7) := by
  have hdigits := Nat.digits_length_le_iff (b := 10) (k := 6) (by decide) (m / 10)
  have hlen := length_decimal m
  have hdiv : m / 10 < 10 ^ 6 ↔ m < 10 ^ 7 := by omega
  unfold snprintfLen
  rw [List.length_cons, ← hdiv, ← hdigits]
  omega

/-- The buffers are large enough for all components exactly if they are below ten millions. -/
theorem oidNeeded_spec (hn : n < 256) (others : List ℕ) :
    oidNeeded n others ≤ 4 + (oidText n others).length + 1 ∧
      (oidNeeded n others = 4 + (oidText n others).length + 1 ↔ ∀ m ∈ others, m < 10 ^ 7) := by
  have hfirst : snprintfLen 6 (decimal (n / 40) ++ dot :: decimal (n % 40)) =
      (decimal (n / 40)).length + 1 + (decimal (n % 40)).length := by
    have hone := Nat.digits_length_le_iff (b := 10) (k := 0) (by decide) (n / 40 / 10)
    have htwo := Nat.digits_length_le_iff (b := 10) (k := 1) (by decide) (n % 40 / 10)
    have h1 := length_decimal (n / 40)
    have h2 := length_decimal (n % 40)
    unfold snprintfLen
    rw [List.length_append, List.length_cons]
    omega
  have hlen : (oidText n others).length = (decimal (n / 40)).length + 1 + (decimal (n % 40)).length +
      (others.map fun m => (dot :: decimal m).length).sum := by
    rw [oidText, dotted, List.length_append, List.length_cons, List.length_append, List.length_flatMap]
    omega
  have hsum : (others.map fun m => snprintfLen 9 (dot :: decimal m)).sum ≤
      (others.map fun m => (dot :: decimal m).length).sum ∧
      ((others.map fun m => snprintfLen 9 (dot :: decimal m)).sum =
        (others.map fun m => (dot :: decimal m).length).sum ↔ ∀ m ∈ others, m < 10 ^ 7) := by
    induction others with
    | nil => exact ⟨Nat.le_refl _, iff_of_true rfl (by simp)⟩
    | cons m others ih =>
      have hm := snprintfLen_component m
      have ih := ih (by rw [oidText, dotted, List.length_append, List.length_cons, List.length_append,
        List.length_flatMap]; omega)
      rw [List.map_cons, List.sum_cons, List.map_cons, List.sum_cons, List.forall_mem_cons, ← ih.2, ← hm.2]
      omega
  unfold oidNeeded
  rw [hfirst, hlen, ← hsum.2]
  omega

/-! ## Round trip -/

theorem base128_of_lt (h : n < 128) : base128 n = [BitVec.ofNat 8 n] := by
  rw [base128, Nat.div_eq_of_lt h, Nat.mod_eq_of_lt h, Nat.digits_zero]
  rfl

theorem oidBytes_length (hfirst : first ≤ 2) (hbyte : first * 40 + second ≤ 255)
    (hlength : (dotted first second others).length + 5 < 2 ^ 32) :
    (oidBytes first second others).length + 6 < 2 ^ 32 := by
  have h1 := base128_length_le first
  have h2 := base128_length_le second
  have hsum : (others.flatMap base128).length + others.length ≤
      (others.flatMap fun m => dot :: decimal m).length := by
    clear hlength
    induction others with
    | nil => exact Nat.le_refl 0
    | cons m others ih =>
      have hm := base128_length_le m
      rw [List.flatMap_cons, List.flatMap_cons, List.length_append, List.length_append, List.length_cons,
        List.length_cons]
      omega
  have hpos1 := List.length_pos_iff.mpr (decimal_ne_nil first)
  have hpos2 := List.length_pos_iff.mpr (decimal_ne_nil second)
  rw [dotted, List.length_append, List.length_cons, List.length_append] at hlength
  rw [oidBytes, List.length_cons]
  split
  · next hnil =>
    have hd1 := Nat.digits_length_le_iff (b := 128) (k := 0) (by decide) (first / 128)
    have hd2 := Nat.digits_length_le_iff (b := 128) (k := 1) (by decide) (second / 128)
    have hl1 := length_base128 first
    have hl2 := length_base128 second
    rw [List.flatMap_cons, List.flatMap_singleton, List.length_append]
    omega
  · next hne =>
    have hcount := List.length_pos_iff.mpr hne
    omega

theorem oidBytes_eq (hothers : others ≠ []) (hbyte : first * 40 + second < 128) :
    oidBytes first second others = oidContent first second others := by
  rw [oidBytes, oidContent, if_neg hothers, base128_of_lt hbyte, List.singleton_append]

theorem oidContent_eq (hbyte : first * 40 + second < 128) : oidContent first second others =
    BitVec.ofNat 8 (first * 40 + second) :: others.flatMap base128 := by
  rw [oidContent, base128_of_lt hbyte, List.singleton_append]

/-- What the decoder makes of an encoding whose first two components share a byte. -/
theorem decodeOid_derOid (hbyte : first * 40 + second < 128) (hothers : ∀ n ∈ others, n < 2 ^ 31)
    (hfit : (oidContent first second others).length + 6 < 2 ^ 32) :
    decodeOid (derOid first second others) (BitVec.ofNat 32 (derOid first second others).length) none =
      .ok (BitVec.ofNat 32 (oidNeeded (first * 40 + second) others), none) ∧
    ∀ size, decodeOid (derOid first second others)
        (BitVec.ofNat 32 (derOid first second others).length) (some size) =
      if size < BitVec.ofNat 32 (oidNeeded (first * 40 + second) others) then
        .error (.moreData (BitVec.ofNat 32 (oidNeeded (first * 40 + second) others)))
      else .ok (BitVec.ofNat 32 (oidNeeded (first * 40 + second) others),
        some (some (oidText (first * 40 + second) others))) := by
  have hbytes : oidContent first second others = _ := oidContent_eq hbyte
  refine decodeOid_eq (by omega) hothers ?_ hbytes rfl
  rw [hbytes, List.length_cons] at hfit
  omega

theorem codesOid_of_fits (hfirst : first ≤ 2) (hsecond : first ≤ 1 → second < 40)
    (hothers : ∀ n ∈ others, n < 2 ^ 31) (h : OidFits first second others) :
    CodesOid (dotted first second others) (derOid first second others) := by
  have hsmall : second < 40 := by
    obtain h | h := h.narrow
    · exact hsecond h
    · exact h
  have hcontent := oidBytes_eq h.three (by omega : first * 40 + second < 128)
  have hfit := oidBytes_length hfirst (by omega : first * 40 + second ≤ 255) h.length
  have hcode := encodeOid_dotted (by omega : first < 2 ^ 31) (by omega : second < 2 ^ 31) hothers
  obtain ⟨c, hc, hquery, hbuffer⟩ := putOid_query hfit
  rw [hcontent] at hcode hc hquery hbuffer hfit
  have hlen : c.toNat = (derOid first second others).length := by
    rw [hc, derOid, List.length_cons, List.length_append]
    omega
  have htext : oidText (first * 40 + second) others = dotted first second others := by
    rw [oidText, show (first * 40 + second) / 40 = first by omega,
      show (first * 40 + second) % 40 = second by omega]
  have hneeded := (oidNeeded_spec (by omega : first * 40 + second < 256) others).2.mpr h.short
  rw [htext] at hneeded
  have hdecode := decodeOid_derOid (by omega) hothers hfit
  rw [htext, hneeded] at hdecode
  refine ⟨⟨c, hlen, (hcode none).trans hquery⟩, fun size => ⟨c, hlen, ?_⟩, ?_⟩
  · rw [hcode, hbuffer, ← hlen]
    by_cases hsize : size < c
    · rw [if_pos hsize, if_neg (Nat.not_le.mpr (BitVec.lt_def.mp hsize))]
    · rw [if_neg hsize, if_pos (Nat.le_of_not_lt fun hlt => hsize (BitVec.lt_def.mpr hlt))]
      rfl
  · refine ⟨_, ?_, hdecode.1, fun size hsize => ?_⟩
    · have hlength := h.length
      rw [BitVec.toNat_ofNat]
      omega
    · rw [hdecode.2, if_neg (BitVec.not_lt.mpr hsize)]

/-- What the encoder writes is the encoding only with a third component and a first byte below 128. -/
theorem oidBytes_of_codes (hfirst : first ≤ 2) (hbyte : first * 40 + second ≤ 255)
    (hothers : ∀ n ∈ others, n < 2 ^ 31) (hlength : (dotted first second others).length + 5 < 2 ^ 32)
    (h : CodesOid (dotted first second others) (derOid first second others)) :
    others ≠ [] ∧ first * 40 + second < 128 := by
  have hfit := oidBytes_length hfirst hbyte hlength
  have hcode := encodeOid_dotted (by omega : first < 2 ^ 31) (by omega : second < 2 ^ 31) hothers
  obtain ⟨c, hc, -, hbuffer⟩ := putOid_query hfit
  obtain ⟨c', hc', hwritten⟩ := h.encode c
  rw [hcode, hbuffer, if_neg (BitVec.lt_irrefl c)] at hwritten
  have hder : asnObjectIdentifier :: (derLength (oidBytes first second others).length ++
      oidBytes first second others) = derOid first second others := by
    have heq := Except.ok.inj hwritten
    split at heq
    · exact congrArg Encoded.written heq
    · exact nomatch congrArg Encoded.ret heq
  have hlt : (derOid first second others).length < 2 ^ 32 := by
    rw [← hc']
    exact c'.isLt
  have hsame := congrArg List.length (tagged_inj (by omega) hlt (Nat.le_refl _) hder)
  have hlen := length_base128 (first * 40 + second)
  have hdigits := Nat.digits_length_le_iff (b := 128) (k := 1) (by decide) ((first * 40 + second) / 128)
  have hzero := Nat.digits_length_le_iff (b := 128) (k := 0) (by decide) ((first * 40 + second) / 128)
  rw [oidBytes, oidContent, List.length_cons, List.length_append] at hsame
  have hthree : others ≠ [] := by
    rintro rfl
    have hl1 := length_base128 first
    have hl2 := length_base128 second
    rw [if_pos rfl, List.flatMap_cons, List.flatMap_singleton, List.length_append, List.flatMap_nil,
      List.length_nil] at hsame
    omega
  rw [if_neg hthree] at hsame
  exact ⟨hthree, by omega⟩

theorem fits_of_codesOid (hfirst : first ≤ 2) (hbyte : first * 40 + second ≤ 255)
    (hothers : ∀ n ∈ others, n < 2 ^ 31)
    (h : CodesOid (dotted first second others) (derOid first second others)) :
    OidFits first second others := by
  obtain ⟨needed, hneeded, hquery, hbuffer⟩ := h.decode
  have hlength : (dotted first second others).length + 5 < 2 ^ 32 := by
    have hlt := needed.isLt
    omega
  obtain ⟨hthree, hlow⟩ := oidBytes_of_codes hfirst hbyte hothers hlength h
  have hfit := oidBytes_length hfirst hbyte hlength
  rw [oidBytes_eq hthree hlow] at hfit
  have hdecode := decodeOid_derOid hlow hothers hfit
  rw [hquery] at hdecode
  have hsize := congrArg Prod.fst (Except.ok.inj hdecode.1)
  dsimp only at hsize
  have htext : oidText (first * 40 + second) others = dotted first second others := by
    have hrun := (hdecode.2 needed).symm.trans (hbuffer needed (BitVec.le_refl _))
    rw [← hsize, if_neg (BitVec.lt_irrefl _)] at hrun
    exact Option.some.inj (Option.some.inj (congrArg Prod.snd (Except.ok.inj hrun)))
  refine ⟨hthree, ?_, ?_, hlength⟩
  · by_contra hwide
    have htwo : first = 2 := by omega
    have hhead := congrArg List.head? htext
    rw [oidText, show (first * 40 + second) / 40 = 3 by omega, htwo] at hhead
    exact absurd (show some (0x33 : Byte) = some 0x32 from hhead) (by decide)
  · obtain ⟨hle, hiff⟩ := oidNeeded_spec (by omega : first * 40 + second < 256) others
    rw [← hiff]
    rw [htext] at hle ⊢
    rw [hsize, BitVec.toNat_ofNat] at hneeded
    have hmod := Nat.mod_le (oidNeeded (first * 40 + second) others) (2 ^ 32)
    omega

/-- Object identifiers make the round trip exactly if they have a third component, a second one below 40
and no other one from ten millions on. -/
theorem oid_codes_iff (first second : ℕ) (others : List ℕ) (hfirst : first ≤ 2)
    (hsecond : first ≤ 1 → second < 40) (hbyte : first * 40 + second ≤ 255)
    (hothers : ∀ n ∈ others, n < 2 ^ 31) :
    CodesOid (dotted first second others) (derOid first second others) ↔ OidFits first second others :=
  ⟨fits_of_codesOid hfirst hbyte hothers, codesOid_of_fits hfirst hsecond hothers⟩

theorem oid_codes_rsa : CodesOid (dotted 1 2 [840, 113549]) (derOid 1 2 [840, 113549]) ↔
    OidFits 1 2 [840, 113549] :=
  oid_codes_iff 1 2 [840, 113549] (by decide) (by decide) (by decide) (by decide)

/-- Of an identifier of two components both are written a second time. -/
theorem not_codesOid_two : ¬CodesOid (dotted 1 2 []) (derOid 1 2 []) :=
  fun h => (fits_of_codesOid (by decide) (by decide) (by simp) h).three rfl

end Wine.Crypt32

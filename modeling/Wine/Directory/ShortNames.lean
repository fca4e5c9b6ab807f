import Wine.Atoms.Chains
import Wine.Directory.Match

/-!
# Short file names

A long name gets a short one: four characters of its base, a hash and three characters of its extension.
The generator and the check of short names have character lists of their own, and only the check's list
has the colon and the backslash.
-/

namespace Wine.Directory

section Chars

def isInvalidDosChar (ch : WChar) : Bool :=
  0x7f#16 < ch ∨ ch ∈ wide "*?<>|\"+=,;[] ~."

/-- `strchr` on the list of illegal characters, which finds the terminator too. -/
def isIllegal (b : BitVec 8) : Bool :=
  b = 0#8 ∨ b = 0xe5#8 ∨ b ∈ "*?<>|\"+=,;[]:/\\".toList.map fun c => BitVec.ofNat 8 c.toNat

def hashChars : List WChar := wide "ABCDEFGHIJKLMNOPQRSTUVWXYZ012345"

def tilde : WChar := 0x7e#16

def underscore : WChar := 0x5f#16

end Chars

section Hash

variable (isCaseSensitive : Bool)

def hashFold (c : WChar) : WChar := if isCaseSensitive then c else wineCaseMap.tolowerW c

/-- The hash code over the characters and their successors; the last one has none. -/
def hashFrom (hash : BitVec 16) : List WChar → BitVec 16
  | [] => hash
  | [c] => hash <<< 3 ^^^ hash >>> 5 ^^^ hashFold isCaseSensitive c
  | c :: d :: rest =>
    hashFrom
      (hash <<< 3 ^^^ hash >>> 5 ^^^ hashFold isCaseSensitive c ^^^
        hashFold isCaseSensitive d <<< 8) (d :: rest)

/-- The last dot that is neither the first nor the last character. -/
def extFrom : ℕ → List WChar → Option ℕ → Option ℕ
  | i, c :: d :: rest, ext => extFrom (i + 1) (d :: rest) (if c = dot then some i else ext)
  | _, _, ext => ext

def extOf (name : List WChar) : Option ℕ := extFrom 1 name.tail none

def dosChar (c : WChar) : WChar :=
  if isInvalidDosChar c then underscore else wineCaseMap.toupperW c

def hashChar (n : BitVec 16) : WChar := hashChars.getD (n &&& 0x1f#16).toNat 0#16

/-- The characters of the base that are copied. -/
def baseChars (name : List WChar) : List WChar :=
  (name.take ((extOf name).getD name.length)).take 4

/-- The characters of the extension that are copied. -/
def extChars (name : List WChar) : List WChar :=
  match extOf name with
  | none => []
  | some i => (name.drop (i + 1)).take 3

/-- `hash_short_file_name` -/
def hashShortFileName (name : List WChar) : List WChar :=
  let hash := hashFrom isCaseSensitive 0xbeef#16 name
  (baseChars name).map dosChar ++ List.replicate (5 - (baseChars name).length) tilde ++
    [hashChar (hash >>> 10), hashChar (hash >>> 5), hashChar hash] ++
    match extOf name with
    | none => []
    | some _ => dot :: (extChars name).map dosChar

end Hash

section Legal

/-- The loop over the characters: the position of the dot, and whether there was a space. -/
def scanLegal : ℕ → List (BitVec 8) → Option ℕ → Bool → Option (Option ℕ × Bool)
  | _, [], dotAt, gotSpace => some (dotAt, gotSpace)
  | i, b :: rest, dotAt, gotSpace =>
    if b = 0x20#8 then
      if i = 0 ∨ rest = [] ∨ rest.head? = some 0x2e#8 then none else scanLegal (i + 1) rest dotAt true
    else if b = 0x2e#8 then
      if dotAt.isSome then none else scanLegal (i + 1) rest (some i) gotSpace
    else if isIllegal b then none
    else scanLegal (i + 1) rest dotAt gotSpace

variable (toOem : List WChar → List (BitVec 8))

/-- `RtlIsNameLegalDOS8Dot3`: `none` is `FALSE`, otherwise whether there are spaces. -/
def rtlIsNameLegalDOS8Dot3 (name : List WChar) : Option Bool :=
  let oem := toOem (name.map wineCaseMap.toupperW)
  if 12 < oem.length then none
  else if oem.head? = some 0x2e#8 then
    if oem.length ≠ 1 ∧ (oem.length ≠ 2 ∨ oem[1]? ≠ some 0x2e#8) then none else some false
  else
    match scanLegal 0 oem none false with
    | none => none
    | some (none, gotSpace) => if 8 < oem.length then none else some gotSpace
    | some (some dotAt, gotSpace) =>
      if 8 < dotAt ∨ 4 < oem.length - dotAt ∨ dotAt = oem.length - 1 then none else some gotSpace

/-- A name that is legal and has no spaces. -/
def IsShort (name : List WChar) : Prop := rtlIsNameLegalDOS8Dot3 toOem name = some false

instance (name : List WChar) : Decidable (IsShort toOem name) := by
  unfold IsShort
  infer_instance

end Legal

section Find

variable (isCaseSensitive : Bool) (toOem : List WChar → List (BitVec 8))

/-- The comparison of lengths and `memicmpW`. -/
def SameName (buffer name : List WChar) : Prop :=
  buffer.length = name.length ∧ memicmpW wineCaseMap buffer name name.length = 0

instance (buffer name : List WChar) : Decidable (SameName buffer name) := by
  unfold SameName
  infer_instance

/-- The names that the kernel of a VFAT file system has for an entry; the long one may be empty. -/
structure VfatEntry where
  short : List WChar
  long : List WChar

def findVfat (name : List WChar) : List VfatEntry → Option (List WChar)
  | [] => none
  | de :: entries =>
    if de.long ≠ [] ∧ SameName de.long name then some de.long
    else if SameName de.short name then some (if de.long ≠ [] then de.long else de.short)
    else findVfat name entries

def findEntry (name : List WChar) (isNameShort : Bool) : List (List WChar) → Option (List WChar)
  | [] => none
  | entry :: entries =>
    if SameName entry name then some entry
    else if isNameShort ∧ ¬IsShort toOem entry ∧
        SameName (hashShortFileName isCaseSensitive entry) name then some entry
    else findEntry name isNameShort entries

/-- A directory: what a `stat` says about a name, and the entries that the kernel and `readdir` return. -/
structure Dir where
  stat : List WChar → Bool
  vfat : List VfatEntry
  entries : List (List WChar)

/-- `find_file_in_dir`: the name of the file that is found. -/
def findFileInDir (dir : Dir) (name : List WChar) (checkCase : Bool) : Option (List WChar) :=
  if dir.stat name then some name
  else if checkCase then none
  else
    let isNameShort := IsShort toOem name
    match if isNameShort then findVfat name dir.vfat else none with
    | some found => some found
    | none => findEntry isCaseSensitive toOem name isNameShort dir.entries

/-- The file that is found for a name has it, as its long name or as its short one. -/
inductive Named (dir : Dir) (name : List WChar) : List WChar → Prop
  | stat (h : dir.stat name = true) : Named dir name name
  | vfat (de : VfatEntry) (hde : de ∈ dir.vfat) (h : SameName de.long name ∨ SameName de.short name) :
      Named dir name (if de.long ≠ [] then de.long else de.short)
  | entry (entry : List WChar) (hentry : entry ∈ dir.entries)
      (h : SameName entry name ∨ SameName (hashShortFileName isCaseSensitive entry) name) :
      Named dir name entry

end Find

/-- The conversion to the OEM code page keeps the ASCII characters. -/
def KeepsAscii (toOem : List WChar → List (BitVec 8)) : Prop :=
  ∀ s : List WChar, (∀ c ∈ s, c.toNat < 0x80) → toOem s = s.map (BitVec.setWidth 8)

/-- The conversion that has nothing but the ASCII characters. -/
def asciiOem (s : List WChar) : List (BitVec 8) :=
  s.map fun c => if c.toNat < 0x80 then c.setWidth 8 else 0x3f#8

/-- What the check lets pass, and the conversion to upper case leaves. -/
def Good (c : WChar) : Prop :=
  c.toNat < 0x80 ∧ wineCaseMap.toupperW c = c ∧ c.setWidth 8 ≠ 0x20#8 ∧ c.setWidth 8 ≠ 0x2e#8 ∧
    isIllegal (c.setWidth 8) = false

instance (c : WChar) : Decidable (Good c) := by
  unfold Good
  infer_instance

/-- The characters of the claim's names that may be copied: no terminator, separator or colon. -/
def Copyable (c : WChar) : Prop := c ≠ 0#16 ∧ c ≠ 0x2f#16 ∧ c ≠ 0x3a#16 ∧ c ≠ 0x5c#16

instance (c : WChar) : Decidable (Copyable c) := by
  unfold Copyable
  infer_instance

variable {isCaseSensitive : Bool} {toOem : List WChar → List (BitVec 8)}
  {name s front back : List WChar} {c : WChar} {i j : ℕ} {ext : Option ℕ}

theorem good_dosChar_ascii : ∀ n ∈ List.range 128, Copyable (BitVec.ofNat 16 n) →
    Good (dosChar (BitVec.ofNat 16 n)) := by
  decide +kernel

theorem good_hashChars : ∀ n ∈ List.range 32, Good (hashChars.getD n 0#16) := by
  decide

theorem good_dosChar (hc : Copyable c) : Good (dosChar c) := by
  by_cases hascii : c.toNat < 0x80
  · have hgood := good_dosChar_ascii c.toNat (List.mem_range.mpr hascii)
    rw [BitVec.ofNat_toNat, BitVec.setWidth_eq] at hgood
    exact hgood hc
  · have hinvalid : isInvalidDosChar c = true := by
      refine decide_eq_true (Or.inl ?_)
      rw [BitVec.lt_def]
      exact Nat.lt_of_not_le fun h => hascii (Nat.lt_succ_of_le h)
    rw [dosChar, if_pos hinvalid]
    decide

theorem good_hashChar (n : BitVec 16) : Good (hashChar n) := by
  refine good_hashChars _ (List.mem_range.mpr ?_)
  rw [BitVec.toNat_and]
  exact Nat.and_lt_two_pow _ (n := 5) (by decide)

/-- The extension is not empty. -/
theorem extFrom_lt (h : extFrom i s ext = some j) : ext = some j ∨ j + 1 < i + s.length := by
  induction s generalizing i ext with
  | nil => exact Or.inl h
  | cons c s ih =>
    cases s with
    | nil => exact Or.inl h
    | cons d s =>
      rw [extFrom] at h
      rcases ih h with hext | hlt
      · split at hext
        · obtain rfl := Option.some.inj hext
          refine Or.inr ?_
          rw [List.length_cons, List.length_cons]
          omega
        · exact Or.inl hext
      · refine Or.inr ?_
        rw [List.length_cons]
        omega

theorem extOf_lt (h : extOf name = some i) : i + 1 < name.length := by
  rcases extFrom_lt h with h | h
  · exact nomatch h
  · rw [List.length_tail] at h
    omega

/-- Eight good characters, and a dot and one to three good ones if there is an extension. -/
theorem hashShortFileName_shape (isCaseSensitive : Bool) (name : List WChar) : ∃ front back,
    hashShortFileName isCaseSensitive name = front ++ back ∧ front.length = 8 ∧
      ((∀ c ∈ baseChars name ++ extChars name, Copyable c) → ∀ c ∈ front, Good c) ∧
      (back = [] ∨ ∃ rest, back = dot :: rest ∧ rest ≠ [] ∧ rest.length ≤ 3 ∧
        ((∀ c ∈ baseChars name ++ extChars name, Copyable c) → ∀ c ∈ rest, Good c)) := by
  obtain ⟨hash, hhash⟩ : ∃ h, hashFrom isCaseSensitive 0xbeef#16 name = h := ⟨_, rfl⟩
  refine ⟨(baseChars name).map dosChar ++ List.replicate (5 - (baseChars name).length) tilde ++
    [hashChar (hash >>> 10), hashChar (hash >>> 5), hashChar hash],
    match extOf name with
    | none => []
    | some _ => dot :: (extChars name).map dosChar, ?_, ?_, ?_, ?_⟩
  · rw [hashShortFileName, hhash]
  · have hlen : (baseChars name).length ≤ 4 := List.length_take_le _ _
    rw [List.length_append, List.length_append, List.length_map, List.length_replicate]
    simp only [List.length_cons, List.length_nil]
    omega
  · intro hcopied c hc
    rcases List.mem_append.mp hc with hc | hc
    · rcases List.mem_append.mp hc with hc | hc
      · obtain ⟨d, hd, rfl⟩ := List.mem_map.mp hc
        exact good_dosChar (hcopied d (List.mem_append_left _ hd))
      · rw [List.eq_of_mem_replicate hc]
        decide
    · simp only [List.mem_cons, List.not_mem_nil, or_false] at hc
      rcases hc with rfl | rfl | rfl
      · exact good_hashChar _
      · exact good_hashChar _
      · exact good_hashChar _
  · cases hext : extOf name with
    | none => exact Or.inl rfl
    | some i =>
      have hlt := extOf_lt hext
      have hchars : extChars name = (name.drop (i + 1)).take 3 := by
        rw [extChars, hext]
      refine Or.inr ⟨_, rfl, ?_, ?_, ?_⟩
      · refine List.ne_nil_of_length_pos ?_
        rw [List.length_map, hchars, List.length_take, List.length_drop]
        omega
      · rw [List.length_map, hchars]
        exact List.length_take_le _ _
      · intro hcopied c hc
        obtain ⟨d, hd, rfl⟩ := List.mem_map.mp hc
        exact good_dosChar (hcopied d (List.mem_append_right _ hd))

theorem hashShortFileName_length (name : List WChar) :
    (hashShortFileName isCaseSensitive name).length ≤ 12 := by
  obtain ⟨front, back, heq, hfront, -, hback⟩ := hashShortFileName_shape isCaseSensitive name
  rw [heq, List.length_append, hfront]
  rcases hback with rfl | ⟨rest, rfl, -, hlen, -⟩
  · decide
  · rw [List.length_cons]
    omega

/-- Good characters only move the position on. -/
theorem scanLegal_good {bytes : List (BitVec 8)} (i : ℕ) (rest : List (BitVec 8)) (dotAt : Option ℕ)
    (gotSpace : Bool) (h : ∀ b ∈ bytes, b ≠ 0x20#8 ∧ b ≠ 0x2e#8 ∧ isIllegal b = false) :
    scanLegal i (bytes ++ rest) dotAt gotSpace = scanLegal (i + bytes.length) rest dotAt gotSpace := by
  induction bytes generalizing i with
  | nil => rfl
  | cons b bytes ih =>
    obtain ⟨⟨hspace, hdot, hlegal⟩, hbytes⟩ := List.forall_mem_cons.mp h
    rw [List.cons_append, scanLegal, if_neg hspace, if_neg hdot, hlegal, if_neg Bool.false_ne_true,
      ih (i + 1) hbytes, List.length_cons, Nat.add_assoc, Nat.add_comm 1]

theorem good_bytes (h : ∀ c ∈ s, Good c) : ∀ b ∈ s.map (BitVec.setWidth 8),
    b ≠ 0x20#8 ∧ b ≠ 0x2e#8 ∧ isIllegal b = false := by
  intro b hb
  obtain ⟨c, hc, rfl⟩ := List.mem_map.mp hb
  exact (h c hc).2.2

/-- Eight good characters, and a dot and at most three, are a short name. -/
theorem isShort_append (hoem : KeepsAscii toOem) (hlen : front.length = 8)
    (hfront : ∀ c ∈ front, Good c)
    (hback : back = [] ∨ ∃ rest, back = dot :: rest ∧ rest ≠ [] ∧ rest.length ≤ 3 ∧
      ∀ c ∈ rest, Good c) : IsShort toOem (front ++ back) := by
  have hchars : ∀ c ∈ front ++ back, c.toNat < 0x80 ∧ wineCaseMap.toupperW c = c := by
    intro c hc
    rcases List.mem_append.mp hc with hc | hc
    · exact ⟨(hfront c hc).1, (hfront c hc).2.1⟩
    · rcases hback with rfl | ⟨rest, rfl, -, -, hrest⟩
      · exact absurd hc List.not_mem_nil
      · rcases List.mem_cons.mp hc with rfl | hc
        · exact ⟨by decide, by decide⟩
        · exact ⟨(hrest c hc).1, (hrest c hc).2.1⟩
  have hupper : (front ++ back).map wineCaseMap.toupperW = front ++ back := by
    refine (List.map_congr_left fun c hc => (hchars c hc).2).trans (List.map_id' _)
  have hbytes : toOem ((front ++ back).map wineCaseMap.toupperW) =
      front.map (BitVec.setWidth 8) ++ back.map (BitVec.setWidth 8) := by
    rw [hupper, hoem _ fun c hc => (hchars c hc).1, List.map_append]
  obtain ⟨c, front', rfl⟩ := List.exists_cons_of_ne_nil
    (List.ne_nil_of_length_pos (Nat.lt_of_lt_of_eq (by decide) hlen.symm))
  have hhead : ((c :: front').map (BitVec.setWidth 8) ++ back.map (BitVec.setWidth 8)).head? ≠
      some 0x2e#8 := fun h => (hfront c List.mem_cons_self).2.2.2.1 (Option.some.inj h)
  have hscan := scanLegal_good 0 (back.map (BitVec.setWidth 8)) none false (good_bytes hfront)
  have hlength : ((c :: front').map (BitVec.setWidth 8) ++ back.map (BitVec.setWidth 8)).length =
      8 + back.length := by
    rw [List.length_append, List.length_map, List.length_map, hlen]
  have hback12 : back.length ≤ 4 := by
    rcases hback with rfl | ⟨rest, rfl, -, hle, -⟩
    · exact Nat.zero_le 4
    · exact Nat.succ_le_succ hle
  rw [List.length_map, hlen, Nat.zero_add] at hscan
  rw [IsShort, rtlIsNameLegalDOS8Dot3, hbytes]
  rw [if_neg (by omega), if_neg hhead, hscan, hlength]
  rcases hback with rfl | ⟨rest, rfl, hne, hle, hrest⟩
  · rfl
  · have hpos := List.length_pos_iff.mpr hne
    have hrestScan := scanLegal_good 9 [] (some 8) false (good_bytes hrest)
    rw [List.append_nil] at hrestScan
    rw [List.map_cons, scanLegal, if_neg (by decide), if_pos (by decide), if_neg (by decide), hrestScan,
      scanLegal, List.length_cons]
    dsimp only
    rw [if_neg (by omega)]

theorem sameName_self (name : List WChar) : SameName name name :=
  ⟨rfl, (Atoms.memicmpW_eq_zero rfl).mpr rfl⟩

theorem named_of_findVfat {dir : Dir} {entries : List VfatEntry} {found : List WChar}
    (hsub : ∀ de ∈ entries, de ∈ dir.vfat) (h : findVfat name entries = some found) :
    Named isCaseSensitive dir name found := by
  induction entries with
  | nil => exact nomatch h
  | cons de entries ih =>
    have hde := hsub de List.mem_cons_self
    rw [findVfat] at h
    split at h
    · next hlong =>
      obtain rfl := Option.some.inj h
      have hnamed : Named isCaseSensitive dir name _ := Named.vfat de hde (Or.inl hlong.2)
      rwa [if_pos hlong.1] at hnamed
    split at h
    · next hshort =>
      obtain rfl := Option.some.inj h
      exact Named.vfat de hde (Or.inr hshort)
    · exact ih (fun d hd => hsub d (List.mem_cons_of_mem _ hd)) h

/-- The search of the entries ends at one that has the name. -/
theorem findEntry_isSome {entries : List (List WChar)} {entry : List WChar} (hentry : entry ∈ entries)
    (hlong : ¬IsShort toOem entry)
    (hname : SameName (hashShortFileName isCaseSensitive entry) name) :
    ∃ found, findEntry isCaseSensitive toOem name true entries = some found ∧ found ∈ entries ∧
      (SameName found name ∨ SameName (hashShortFileName isCaseSensitive found) name) := by
  induction entries with
  | nil => exact absurd hentry List.not_mem_nil
  | cons e entries ih =>
    rw [findEntry]
    split
    · next hsame => exact ⟨e, rfl, List.mem_cons_self, Or.inl hsame⟩
    split
    · next hhash => exact ⟨e, rfl, List.mem_cons_self, Or.inr hhash.2.2⟩
    · next hsame hhash =>
      rcases List.mem_cons.mp hentry with rfl | hentry
      · exact absurd ⟨rfl, hlong, hname⟩ hhash
      · obtain ⟨found, hfound, hmem, hsame⟩ := ih hentry
        exact ⟨found, hfound, List.mem_cons_of_mem _ hmem, hsame⟩

/-- A short name is at most twelve characters long. When no colon and no backslash is copied it is legal,
and a file that has no short name of its own is found by it, or another file that has the name. -/
theorem hashShortFileName_usable (isCaseSensitive : Bool) (toOem : List WChar → List (BitVec 8))
    (name : List WChar) (hoem : KeepsAscii toOem)
    (hchars : ∀ c ∈ name, c ≠ 0#16 ∧ c ≠ 0x2f#16) :
    (hashShortFileName isCaseSensitive name).length ≤ 12 ∧
      ((∀ c ∈ baseChars name ++ extChars name, c ≠ 0x3a#16 ∧ c ≠ 0x5c#16) →
        IsShort toOem (hashShortFileName isCaseSensitive name) ∧
          ∀ dir : Dir, name ∈ dir.entries → ¬IsShort toOem name →
            ∃ found, findFileInDir isCaseSensitive toOem dir
                (hashShortFileName isCaseSensitive name) false = some found ∧
              Named isCaseSensitive dir (hashShortFileName isCaseSensitive name) found) := by
  refine ⟨hashShortFileName_length name, fun hcopied => ?_⟩
  have hcopyable : ∀ c ∈ baseChars name ++ extChars name, Copyable c := by
    intro c hc
    have hmem : c ∈ name := by
      rcases List.mem_append.mp hc with hc | hc
      · exact List.mem_of_mem_take (List.mem_of_mem_take hc)
      · rw [extChars] at hc
        split at hc
        · exact absurd hc List.not_mem_nil
        · exact List.mem_of_mem_drop (List.mem_of_mem_take hc)
    exact ⟨(hchars c hmem).1, (hchars c hmem).2, (hcopied c hc).1, (hcopied c hc).2⟩
  have hshort : IsShort toOem (hashShortFileName isCaseSensitive name) := by
    obtain ⟨front, back, heq, hfront, hgood, hback⟩ :=
      hashShortFileName_shape isCaseSensitive name
    rw [heq]
    refine isShort_append hoem hfront (hgood hcopyable) (hback.imp_right ?_)
    exact fun ⟨rest, hrest, hne, hle, hgood⟩ => ⟨rest, hrest, hne, hle, hgood hcopyable⟩
  refine ⟨hshort, fun dir hdir hlong => ?_⟩
  rw [findFileInDir]
  split
  · next hstat => exact ⟨_, rfl, Named.stat hstat⟩
  · rw [if_neg Bool.false_ne_true]
    dsimp only
    rw [if_pos hshort]
    cases hvfat : findVfat (hashShortFileName isCaseSensitive name) dir.vfat with
    | some found => exact ⟨found, rfl, named_of_findVfat (fun de hde => hde) hvfat⟩
    | none =>
      obtain ⟨found, hfound, hmem, hsame⟩ := findEntry_isSome hdir hlong
        (sameName_self (hashShortFileName isCaseSensitive name))
      refine ⟨found, ?_, Named.entry found hmem hsame⟩
      rw [decide_eq_true hshort]
      exact hfound

section Samples

theorem keepsAscii_asciiOem : KeepsAscii asciiOem := fun _ hs =>
  List.map_congr_left fun c hc => if_pos (hs c hc)

/-- A directory without anything but one file. -/
def dirOf (name : List WChar) : Dir where
  stat _ := false
  vfat := []
  entries := [name]

def longName : List WChar := wide "a.html"

theorem longName_separators : (longName.all fun c => c ≠ 0#16 ∧ c ≠ 0x2f#16) = true := by decide

theorem longName_copied :
    ((baseChars longName ++ extChars longName).all fun c => c ≠ 0x3a#16 ∧ c ≠ 0x5c#16) = true := by
  decide

theorem hashShortFileName_usable_sample : ∃ found,
    findFileInDir false asciiOem (dirOf longName) (hashShortFileName false longName) false =
      some found ∧ Named false (dirOf longName) (hashShortFileName false longName) found := by
  have hchars := fun c hc => of_decide_eq_true (List.all_eq_true.mp longName_separators c hc)
  have hcopied := fun c hc => of_decide_eq_true (List.all_eq_true.mp longName_copied c hc)
  have hlong : ¬IsShort asciiOem longName := by decide
  exact ((hashShortFileName_usable false asciiOem longName keepsAscii_asciiOem hchars).2 hcopied).2
    (dirOf longName) List.mem_cons_self hlong

/-- A colon is copied to the short name, and a file whose name is a short one is not found by the
short name that is generated for it. -/
theorem not_hashShortFileName_usable :
    ¬IsShort asciiOem (hashShortFileName false (wide "a:b c d")) ∧
      findFileInDir false asciiOem (dirOf (wide "README"))
        (hashShortFileName false (wide "README")) false = none :=
  ⟨by decide, by decide⟩

end Samples

end Wine.Directory

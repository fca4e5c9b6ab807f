import Wine.Registry.Scan

/-!
# What the scanners read

On a text that ends in its `NUL` every scanner agrees with the function on the text itself, as long as
it stays within the text; it leaves the text exactly if it steps over the `NUL` and goes on.
-/

namespace Wine.Registry
open Wine.Lib

variable {t : List Byte} {E : Outside → Prop}

/-- A text without a `NUL`. -/
def Plain (t : List Byte) : Prop := ∀ c ∈ t, c ≠ 0

theorem Plain.drop (ht : Plain t) (n : ℕ) : Plain (t.drop n) :=
  fun c hc => ht c (List.mem_of_mem_drop hc)

theorem plain_cString (p : List Byte) : Plain (cString p) := by
  induction p with
  | nil => exact fun c hc => by cases hc
  | cons d p ih =>
    unfold cString
    rw [List.takeWhile_cons]
    by_cases hd : d = 0
    · rw [decide_eq_false (not_not.2 hd)]
      exact fun c hc => by cases hc
    · rw [decide_eq_true hd]
      intro c hc
      obtain rfl | hc := List.mem_cons.mp hc
      · exact hd
      · exact ih c hc

theorem Plain.cString_eq (ht : Plain t) (rest : List Byte) : cString (t ++ 0 :: rest) = t := by
  unfold cString
  rw [List.takeWhile_append_of_pos fun c hc => decide_eq_true (ht c hc)]
  simp

theorem Plain.strlen_eq (ht : Plain t) : strlen t = t.length := by
  have h := @List.takeWhile_append_of_pos _ (fun c : Byte => decide (c ≠ 0)) t []
    fun c hc => decide_eq_true (ht c hc)
  rw [List.append_nil, List.takeWhile_nil, List.append_nil] at h
  exact congrArg List.length h

theorem drop_nul {n : ℕ} (hn : n ≤ t.length) : (t ++ [(0 : Byte)]).drop n = t.drop n ++ [0] :=
  List.drop_append_of_le_length hn

/-! ## Reads -/

@[simp] theorem wp_skip (n : ℕ) (Q : PUnit → List Byte → Prop) (p : List Byte) :
    wp (skip n) Q E p ↔ Q ⟨⟩ (p.drop n) := Iff.rfl

theorem wp_readAt {Q : Byte → List Byte → Prop} {i : ℕ} (hi : i ≤ t.length)
    (h : Q (peek (t.drop i)) (t ++ [0])) : wp (readAt i) Q E (t ++ [0]) := by
  have hget : (t ++ [0])[i]? = some (peek (t.drop i)) := by
    rw [← Nat.add_zero i, ← List.getElem?_drop, drop_nul hi, Nat.add_zero]
    cases t.drop i with
    | nil => rfl
    | cons c t => rfl
  unfold readAt
  simp only [wp_bind, wp_get, hget, wp_pure]
  exact h

theorem wp_readAt_zero {Q : Byte → List Byte → Prop} (h : Q (peek t) (t ++ [0])) :
    wp (readAt 0) Q E (t ++ [0]) :=
  wp_readAt (Nat.zero_le _) h

theorem wp_readAt_nil {Q : Byte → List Byte → Prop} {i : ℕ} (h : E ⟨⟩) : wp (readAt i) Q E [] := by
  unfold readAt
  simp only [wp_bind, wp_get, List.getElem?_nil, wp_throw]
  exact h

theorem wp_readString {Q : List Byte → List Byte → Prop} (ht : Plain t) (h : Q t (t ++ [0])) :
    wp readString Q E (t ++ [0]) := by
  unfold readString
  simp only [wp_bind, wp_get]
  rw [if_pos (List.mem_append_right _ List.mem_cons_self), ht.cString_eq]
  exact h

/-! ## Characters -/

theorem wp_scanDigits {isDigit : Byte → Bool} {value : ℕ → Byte → ℕ} (h0 : isDigit 0 = false)
    {n v : ℕ} : wp (scanDigits isDigit value n v)
      (fun r p => r = ((t.takeWhile isDigit).take n).foldl value v ∧
        p = t.drop ((t.takeWhile isDigit).take n).length ++ [0]) E (t ++ [0]) := by
  induction n generalizing t v with
  | zero => exact ⟨rfl, rfl⟩
  | succ n ih =>
    unfold scanDigits
    simp only [wp_bind]
    refine wp_readAt_zero ?_
    cases t with
    | nil =>
      have hd : isDigit (peek []) = false := h0
      simp only [hd, Bool.false_eq_true, if_false, wp_pure]
      exact ⟨rfl, rfl⟩
    | cons c t =>
      have hpeek : peek (c :: t) = c := rfl
      rw [hpeek]
      cases hd : isDigit c with
      | false =>
        simp only [Bool.false_eq_true, if_false, wp_pure, List.takeWhile_cons, hd]
        exact ⟨rfl, rfl⟩
      | true =>
        simp only [if_true, wp_bind, wp_skip, List.takeWhile_cons, hd]
        exact ih

theorem parseEscape_drop (p : List Byte) : ∃ n, (parseEscape p).2 = p.drop n := by
  unfold parseEscape
  cases cEscapes.lookup (peek p) with
  | some w => exact ⟨1, rfl⟩
  | none =>
    dsimp only
    by_cases hx : peek p = ascii 'x'
    · rw [if_pos hx]
      by_cases hds : ((p.drop 1).takeWhile isxdigit).take 4 = []
      · rw [if_pos hds]
        exact ⟨1, rfl⟩
      · rw [if_neg hds]
        exact ⟨_, rfl⟩
    · rw [if_neg hx]
      by_cases ho : isodigit (peek p) = true
      · rw [if_pos ho]
        exact ⟨_, rfl⟩
      · rw [if_neg ho]
        exact ⟨1, rfl⟩

theorem parseChar_drop (p : List Byte) : ∃ n, (parseChar p).2 = (p.drop 1).drop n := by
  unfold parseChar
  by_cases hb : peek p ≠ ascii '\\'
  · rw [if_pos hb]
    exact ⟨0, rfl⟩
  · rw [if_neg hb]
    exact parseEscape_drop (p.drop 1)

theorem wp_scanEscape (ht : Plain t) : wp scanEscape (fun w p => w = (parseEscape t).1 ∧
    p = if t = [] then [] else (parseEscape t).2 ++ [0]) E (t ++ [0]) := by
  unfold scanEscape
  simp only [wp_bind]
  refine wp_readAt_zero ?_
  cases t with
  | nil => exact ⟨rfl, rfl⟩
  | cons d t =>
    have hpeek : peek (d :: t) = d := rfl
    unfold parseEscape
    rw [hpeek, if_neg (List.cons_ne_nil d t)]
    cases cEscapes.lookup d with
    | some w => exact ⟨rfl, rfl⟩
    | none =>
      dsimp only
      by_cases hx : d = ascii 'x'
      · simp only [hx, if_true, wp_bind, wp_skip]
        refine wp_readAt_zero (t := t) ?_
        rw [List.drop_one, List.tail_cons]
        cases hd : isxdigit (peek t) with
        | false =>
          have hnil : (t.takeWhile isxdigit).take 4 = [] := by
            cases t with
            | nil => rfl
            | cons c t =>
              have hc : isxdigit c = false := hd
              rw [List.takeWhile_cons, hc]
              rfl
          rw [if_pos hnil]
          exact ⟨rfl, rfl⟩
        | true =>
          have hne : (t.takeWhile isxdigit).take 4 ≠ [] := by
            cases t with
            | nil => cases hd
            | cons c t =>
              have hc : isxdigit c = true := hd
              rw [List.takeWhile_cons, hc]
              exact List.cons_ne_nil _ _
          simp only [if_true, wp_bind, wp_pure, if_neg hne]
          refine wp_mono (wp_scanDigits (by decide)) ?_
          rintro v p ⟨rfl, rfl⟩
          refine ⟨rfl, ?_⟩
          rw [Nat.add_comm, List.drop_succ_cons]
      · simp only [hx, if_false]
        by_cases ho : isodigit d = true
        · simp only [ho, if_true, wp_bind, wp_pure]
          refine wp_mono (wp_scanDigits (t := d :: t) (by decide)) ?_
          rintro v p ⟨rfl, rfl⟩
          exact ⟨rfl, rfl⟩
        · simp only [ho]
          exact ⟨rfl, rfl⟩

theorem wp_scanChar (ht : Plain t) (hne : t ≠ []) : wp scanChar (fun w p => w = (parseChar t).1 ∧
    p = if t = [ascii '\\'] then [] else (parseChar t).2 ++ [0]) E (t ++ [0]) := by
  cases t with
  | nil => exact absurd rfl hne
  | cons c t =>
    unfold scanChar parseChar
    simp only [wp_bind]
    refine wp_readAt_zero ?_
    have hpeek : peek (c :: t) = c := rfl
    rw [hpeek]
    simp only [wp_skip]
    by_cases hc : c = ascii '\\'
    · rw [if_neg (not_not.2 hc), if_neg (not_not.2 hc)]
      refine wp_mono (wp_scanEscape (t := t) (ht.drop 1)) ?_
      rintro w p ⟨rfl, rfl⟩
      refine ⟨rfl, ?_⟩
      rw [hc]
      by_cases htn : t = []
      · rw [if_pos htn, if_pos (by rw [htn])]
      · rw [if_neg htn, if_neg (by simpa using htn)]
        rfl
    · rw [if_pos hc, if_pos hc]
      refine ⟨rfl, ?_⟩
      rw [if_neg (by simp [hc])]
      rfl

/-! ## Strings -/

theorem wp_scanLoop {endchar : Byte} {fuel fuel' room : ℕ} (ht : Plain t)
    (hf : room < 2 * fuel) (hl : t.length ≤ fuel') :
    wp (scanLoop endchar fuel room)
      (fun r p => ((dangling endchar fuel' t).all fun n => room < 2 * (n + 1)) = true ∧
        r = (parseLoop endchar fuel' room t).map (·.1) ∧
          ∀ res, parseLoop endchar fuel' room t = some res → p = res.2 ++ [0])
      (fun _ => ¬ ((dangling endchar fuel' t).all fun n => room < 2 * (n + 1)) = true)
      (t ++ [0]) := by
  induction fuel generalizing t fuel' room with
  | zero => omega
  | succ fuel ih =>
    unfold scanLoop
    simp only [wp_bind]
    refine wp_readAt_zero ?_
    cases t with
    | nil =>
      have hnone : parseLoop endchar fuel' room [] = none := by
        cases fuel' with
        | zero => rfl
        | succ fuel' => rfl
      have hdone : dangling endchar fuel' [] = none := by
        cases fuel' with
        | zero => rfl
        | succ fuel' => rfl
      have hpeek : peek [] = 0 := rfl
      rw [hpeek, if_pos rfl, wp_pure, hnone, hdone]
      exact ⟨rfl, rfl, fun res h => by cases h⟩
    | cons c t =>
      obtain ⟨fuel', rfl⟩ : ∃ n, fuel' = n + 1 := ⟨fuel' - 1, by
        rw [List.length_cons] at hl
        omega⟩
      have hpeek : peek (c :: t) = c := rfl
      have hc0 : c ≠ 0 := ht c List.mem_cons_self
      unfold parseLoop dangling
      rw [hpeek, if_neg hc0, if_neg hc0]
      by_cases hend : c = endchar
      · rw [if_pos hend, if_pos hend, if_pos (.inr hend)]
        simp only [wp_bind, wp_skip, wp_pure]
        refine ⟨rfl, rfl, fun res h => ?_⟩
        rw [← Option.some.inj h]
        rfl
      rw [if_neg hend, if_neg hend, if_neg (not_or.2 ⟨hc0, hend⟩)]
      simp only [wp_bind]
      refine wp_mono (wp_scanChar ht (List.cons_ne_nil c t)) ?_
      rintro w p ⟨rfl, hp⟩
      by_cases hroom : room < 2
      · rw [if_pos hroom, if_pos hroom, wp_pure]
        refine ⟨?_, rfl, fun res h => by cases h⟩
        by_cases hb : c :: t = [ascii '\\']
        · rw [if_pos hb]
          simpa using hroom
        · rw [if_neg hb]
          cases dangling endchar fuel' (parseChar (c :: t)).2 with
          | none => rfl
          | some n =>
            simp only [Option.map_some, Option.all_some, decide_eq_true_eq]
            omega
      rw [if_neg hroom, if_neg hroom]
      simp only [wp_bind]
      by_cases hb : c :: t = [ascii '\\']
      · rw [if_pos hb] at hp
        rw [hp, if_pos hb]
        obtain ⟨fuel, rfl⟩ : ∃ n, fuel = n + 1 := ⟨fuel - 1, by omega⟩
        unfold scanLoop
        simp only [wp_bind]
        refine wp_readAt_nil ?_
        simpa using hroom
      · rw [if_neg hb] at hp
        rw [hp, if_neg hb]
        obtain ⟨n, hn⟩ := parseChar_drop (c :: t)
        have hplain : Plain (parseChar (c :: t)).2 := by
          rw [hn]
          exact (ht.drop 1).drop n
        have hlen : (parseChar (c :: t)).2.length ≤ fuel' := by
          rw [hn, List.length_drop, List.drop_one, List.tail_cons]
          rw [List.length_cons] at hl
          omega
        have hall : ((dangling endchar fuel' (parseChar (c :: t)).2).map (· + 1)).all
            (fun n => decide (room < 2 * (n + 1))) =
            (dangling endchar fuel' (parseChar (c :: t)).2).all
              fun n => decide (room - 2 < 2 * (n + 1)) := by
          cases dangling endchar fuel' (parseChar (c :: t)).2 with
          | none => rfl
          | some n =>
            simp only [Option.map_some, Option.all_some]
            congr 1
            apply propext
            omega
        rw [hall]
        refine wp_mono (ih hplain (by omega) hlen) ?_
        rintro r p' ⟨hfits, rfl, hp'⟩
        rw [wp_pure]
        refine ⟨hfits, ?_, fun res h => ?_⟩
        · cases parseLoop endchar fuel' (room - 2) (parseChar (c :: t)).2 with
          | none => rfl
          | some res => rfl
        · rw [Option.map_eq_some_iff] at h
          obtain ⟨res', hres', rfl⟩ := h
          exact hp' res' hres'

/-- `parse_strW` reads within the text exactly if the output is full when it comes to a backslash
that ends the text. -/
theorem wp_scanStrW {len : ℕ} {endchar : Byte} (ht : Plain t) :
    wp (scanStrW len endchar) (fun r p => strFits len t endchar = true ∧
      r = (parseStrW len t endchar).map (·.1) ∧
        ∀ res, parseStrW len t endchar = some res → p = res.2 ++ [0])
      (fun _ => ¬ strFits len t endchar = true) (t ++ [0]) := by
  have hfits : strFits len t endchar =
      (dangling endchar t.length t).all fun n => decide (len - 2 < 2 * (n + 1)) := by
    unfold strFits
    congr 1
    funext n
    congr 1
    apply propext
    omega
  rw [hfits]
  exact wp_scanLoop ht (by omega) (Nat.le_refl _)

/-! ## Hex digits -/

theorem afterPair_drop (p : List Byte) : ∃ n, afterPair p = (p.drop 2).drop n := by
  unfold afterPair
  by_cases hc : peek (p.drop 2) = ascii ','
  · rw [if_pos hc]
    exact ⟨1, rfl⟩
  · rw [if_neg hc]
    exact ⟨0, rfl⟩

theorem wp_skipComma : wp skipComma (fun _ p =>
    p = (if peek t = ascii ',' then t.drop 1 else t) ++ [0]) E (t ++ [0]) := by
  unfold skipComma
  simp only [wp_bind]
  refine wp_readAt_zero ?_
  by_cases hc : peek t = ascii ','
  · rw [if_pos hc, if_pos hc]
    simp only [wp_skip]
    refine drop_nul ?_
    cases t with
    | nil => cases hc
    | cons c p => exact Nat.succ_pos _
  · rw [if_neg hc, if_neg hc]
    rfl

theorem wp_scanHexLoop {fuel fuel' room : ℕ} (ht : Plain t) (hf : room < fuel)
    (hl : t.length ≤ fuel') :
    wp (scanHexLoop fuel room)
      (fun r p => ((loneDigit fuel' t).all fun n => room ≤ n) = true ∧
        r = (parseHexLoop fuel' room t).map (·.1) ∧
          ∀ res, parseHexLoop fuel' room t = some res → p = res.2 ++ [0])
      (fun _ => ¬ ((loneDigit fuel' t).all fun n => room ≤ n) = true) (t ++ [0]) := by
  induction fuel generalizing t fuel' room with
  | zero => omega
  | succ fuel ih =>
    unfold scanHexLoop
    simp only [wp_bind]
    refine wp_readAt_zero ?_
    cases hd : isxdigit (peek t) with
    | false =>
      have hend : parseHexLoop fuel' room t = some ([], t) ∧ loneDigit fuel' t = none := by
        cases fuel' with
        | zero => exact ⟨rfl, rfl⟩
        | succ fuel' =>
          unfold parseHexLoop loneDigit
          rw [hd]
          exact ⟨rfl, rfl⟩
      rw [hend.1, hend.2]
      refine ⟨rfl, rfl, fun res h => ?_⟩
      rw [← Option.some.inj h]
    | true =>
      have hne : t ≠ [] := by
        rintro rfl
        cases hd
      have hpos := List.length_pos_of_ne_nil hne
      obtain ⟨fuel', rfl⟩ : ∃ n, fuel' = n + 1 := ⟨fuel' - 1, by omega⟩
      simp only [if_true, wp_bind]
      refine wp_readAt hpos ?_
      unfold parseHexLoop loneDigit
      simp only [hd, if_true]
      by_cases hroom : room = 0
      · rw [if_pos hroom, if_pos hroom, wp_pure, hroom]
        refine ⟨?_, rfl, fun res h => by cases h⟩
        by_cases hone : t.length = 1
        · rw [if_pos hone]
          rfl
        · rw [if_neg hone]
          cases loneDigit fuel' (afterPair t) with
          | none => rfl
          | some n => simp
      rw [if_neg hroom, if_neg hroom]
      simp only [wp_bind, wp_skip]
      by_cases hone : t.length = 1
      · have hnil : (t ++ [(0 : Byte)]).drop 2 = [] := List.drop_of_length_le (by simp [hone])
        rw [if_pos hone, hnil]
        unfold skipComma
        simp only [wp_bind]
        refine wp_readAt_nil ?_
        simpa using hroom
      have hall : ((loneDigit fuel' (afterPair t)).map (· + 1)).all (fun n => decide (room ≤ n)) =
          (loneDigit fuel' (afterPair t)).all fun n => decide (room - 1 ≤ n) := by
        cases loneDigit fuel' (afterPair t) with
        | none => rfl
        | some n =>
          simp only [Option.map_some, Option.all_some]
          congr 1
          apply propext
          omega
      rw [if_neg hone, drop_nul (by omega), hall]
      obtain ⟨n, hn⟩ := afterPair_drop t
      have hlen : (afterPair t).length ≤ fuel' := by
        rw [hn, List.length_drop, List.length_drop]
        omega
      have hplain : Plain (afterPair t) := by
        rw [hn]
        exact (ht.drop 2).drop n
      refine wp_mono wp_skipComma ?_
      rintro _ p rfl
      refine wp_mono (ih hplain (by omega) hlen) ?_
      rintro r p ⟨hfits, rfl, hp⟩
      rw [wp_pure]
      refine ⟨hfits, ?_, fun res h => ?_⟩
      · rw [Option.map_map, Option.map_map]
        rfl
      · rw [Option.map_eq_some_iff] at h
        obtain ⟨res', hres', rfl⟩ := h
        exact hp res' hres'

/-- `parse_hex` reads within the text exactly if the output is full when it comes to a digit that
ends the text. -/
theorem wp_scanHex {len : ℕ} (ht : Plain t) :
    wp (scanHex len) (fun r p => hexFits len t = true ∧ r = (parseHex len t).map (·.1) ∧
      ∀ res, parseHex len t = some res → p = res.2 ++ [0])
      (fun _ => ¬ hexFits len t = true) (t ++ [0]) :=
  wp_scanHexLoop ht (Nat.lt_succ_self len) (Nat.le_refl _)

/-! ## Values -/

theorem wp_scanTag {tag : List Byte} {i : ℕ} (htag : Plain tag) (hi : i ≤ t.length) :
    wp (scanTag tag i) (fun b p => p = t ++ [0] ∧ b = tag.isPrefixOf (t.drop i)) E
      (t ++ [0]) := by
  induction tag generalizing i with
  | nil => exact ⟨rfl, by simp⟩
  | cons c tag ih =>
    unfold scanTag
    simp only [wp_bind]
    refine wp_readAt hi ?_
    cases hd : t.drop i with
    | nil =>
      have hc : c ≠ peek [] := htag c List.mem_cons_self
      rw [if_neg hc, wp_pure]
      exact ⟨rfl, rfl⟩
    | cons d rest =>
      have hlt : i + 1 ≤ t.length := by
        have := congrArg List.length hd
        rw [List.length_drop, List.length_cons] at this
        omega
      have hrest : t.drop (i + 1) = rest := by
        rw [← List.drop_drop, hd]
        rfl
      have hpeek : peek (d :: rest) = d := rfl
      rw [hpeek]
      by_cases hc : c = d
      · rw [if_pos hc]
        refine wp_mono (ih (fun a ha => htag a (List.mem_cons_of_mem _ ha)) hlt) ?_
        rintro b p ⟨rfl, rfl⟩
        refine ⟨rfl, ?_⟩
        rw [hrest, hc]
        simp [List.isPrefixOf]
      · rw [if_neg hc, wp_pure]
        refine ⟨rfl, ?_⟩
        simp [List.isPrefixOf, hc]

theorem strtoul_suffix (p : List Byte) : (strtoul p).2 <:+ p := by
  unfold strtoul
  dsimp only
  have h1 := List.dropWhile_suffix isspace (l := p)
  generalize p.dropWhile isspace = q at h1 ⊢
  generalize hq2 : (if peek q = ascii '-' ∨ peek q = ascii '+' then q.drop 1 else q) = q2
  have h2 : q2 <:+ p := by
    rw [← hq2]
    by_cases hs : peek q = ascii '-' ∨ peek q = ascii '+'
    · rw [if_pos hs]
      exact (List.drop_suffix 1 q).trans h1
    · rw [if_neg hs]
      exact h1
  generalize hq3 : (if peek q2 = ascii '0' ∧ tolower (peek (q2.drop 1)) = 'x'.toNat ∧
    isxdigit (peek (q2.drop 2)) then q2.drop 2 else q2) = q3
  have h3 : q3 <:+ p := by
    rw [← hq3]
    by_cases hx : peek q2 = ascii '0' ∧ tolower (peek (q2.drop 1)) = 'x'.toNat ∧
        isxdigit (peek (q2.drop 2))
    · rw [if_pos hx]
      exact (List.drop_suffix 2 q2).trans h2
    · rw [if_neg hx]
      exact h2
  by_cases hd : q3.takeWhile isxdigit = []
  · simp [hd]
  · rw [if_neg hd]
    exact (List.drop_suffix _ q3).trans h3

theorem wp_scanSpaces : wp scanSpaces (fun _ p => p = t.dropWhile isspace ++ [0]) E
    (t ++ [0]) := by
  induction t with
  | nil => rfl
  | cons c t ih =>
    rw [List.dropWhile_cons]
    have hrun : scanSpaces (c :: t ++ [0]) =
        if isspace c then scanSpaces (t ++ [0]) else .ok (⟨⟩, c :: t ++ [0]) := rfl
    unfold wp at ih ⊢
    rw [hrun]
    cases hc : isspace c with
    | true => exact ih
    | false => rfl

theorem plain_close : Plain (text "):") := by
  unfold Plain
  decide

/-- What `get_data_type` makes of the entry that it finds in its table. -/
def typeOf (buffer : List Byte) : Option (List Byte × Option (BitVec 16) × ParseType) →
    Option (BitVec 32 × ParseType × List Byte)
  | none => none
  | some (tag, some type, parseType) => some (type.setWidth 32, parseType, buffer.drop tag.length)
  | some (tag, none, parseType) =>
    let r := strtoul (buffer.drop tag.length)
    if (text "):").isPrefixOf r.2 then some (r.1, parseType, r.2.drop 2) else none

theorem getDataType_eq (t : List Byte) :
    getDataType t = typeOf t (dataTypes.find? fun e => e.1.isPrefixOf t) := by
  unfold getDataType
  generalize dataTypes.find? (fun e => e.1.isPrefixOf t) = found
  cases found with
  | none => rfl
  | some e =>
    obtain ⟨tag, type, parseType⟩ := e
    cases type with
    | none => rfl
    | some type => rfl

theorem wp_scanTypes {types : List (List Byte × Option (BitVec 16) × ParseType)}
    (ht : Plain t) (htags : ∀ e ∈ types, Plain e.1) :
    wp (scanTypes types) (fun r p =>
      r = (typeOf t (types.find? fun e => e.1.isPrefixOf t)).map (fun d => (d.1, d.2.1)) ∧
        ∀ d, typeOf t (types.find? fun e => e.1.isPrefixOf t) = some d → p = d.2.2 ++ [0]) E
      (t ++ [0]) := by
  induction types with
  | nil =>
    refine ⟨rfl, fun d h => ?_⟩
    cases h
  | cons e types ih =>
    obtain ⟨tag, type, parseType⟩ := e
    unfold scanTypes
    simp only [wp_bind]
    refine wp_mono (wp_scanTag (htags _ List.mem_cons_self) (Nat.zero_le _)) ?_
    rintro b p ⟨rfl, rfl⟩
    rw [List.drop_zero]
    cases hb : tag.isPrefixOf t with
    | false =>
      have hfind : ((tag, type, parseType) :: types).find? (fun e => e.1.isPrefixOf t) =
          types.find? (fun e => e.1.isPrefixOf t) := List.find?_cons_of_neg (by simp [hb])
      rw [hfind]
      exact ih fun e he => htags e (List.mem_cons_of_mem _ he)
    | true =>
      have hfind : ((tag, type, parseType) :: types).find? (fun e => e.1.isPrefixOf t) =
          some (tag, type, parseType) := List.find?_cons_of_pos hb
      have hlen : tag.length ≤ t.length := (List.isPrefixOf_iff_prefix.mp hb).length_le
      rw [hfind]
      simp only [if_true, wp_bind, wp_skip, drop_nul hlen]
      cases type with
      | some type =>
        refine ⟨rfl, fun d h => ?_⟩
        rw [← Option.some.inj h]
      | none =>
        simp only [wp_bind, typeOf]
        refine wp_readString (ht.drop tag.length) ?_
        have hsuf := strtoul_suffix (t.drop tag.length)
        have hsplit : (t.drop tag.length).drop
            ((t.drop tag.length).length - (strtoul (t.drop tag.length)).2.length) =
              (strtoul (t.drop tag.length)).2 := (List.suffix_iff_eq_drop.mp hsuf).symm
        generalize strtoul (t.drop tag.length) = r at hsplit ⊢
        rw [wp_skip, drop_nul (Nat.sub_le _ _), hsplit]
        refine wp_mono (wp_scanTag plain_close (Nat.zero_le _)) ?_
        rintro b p ⟨rfl, rfl⟩
        rw [List.drop_zero]
        cases hb : (text "):").isPrefixOf r.2 with
        | false =>
          refine ⟨rfl, fun d h => ?_⟩
          cases h
        | true =>
          have hlen : 2 ≤ r.2.length := (List.isPrefixOf_iff_prefix.mp hb).length_le
          simp only [if_true, wp_bind, wp_skip, wp_pure, drop_nul hlen]
          refine ⟨rfl, fun d h => ?_⟩
          rw [← Option.some.inj h]

theorem plain_dataTypes : ∀ e ∈ dataTypes, Plain e.1 := by
  have hall : dataTypes.all (fun e => e.1.all fun c => decide (c ≠ 0)) = true := by decide
  intro e he c hc
  exact of_decide_eq_true (List.all_eq_true.mp (List.all_eq_true.mp hall e he) c hc)

/-- `get_data_type` always reads within the text. -/
theorem wp_scanDataType (ht : Plain t) : wp scanDataType (fun r p =>
    r = (getDataType t).map (fun d => (d.1, d.2.1)) ∧
      ∀ d, getDataType t = some d → p = d.2.2 ++ [0]) E (t ++ [0]) := by
  rw [getDataType_eq]
  exact wp_scanTypes ht plain_dataTypes

/-- The part of `parse_value_name` that scans reads within the text exactly if its call of
`parse_strW` does. -/
theorem wp_scanName (ht : Plain t) : wp scanName (fun r p => nameFits t = true ∧
    r = (parseName t).map (·.1) ∧ ∀ res, parseName t = some res → p = res.2 ++ [0])
    (fun _ => ¬ nameFits t = true) (t ++ [0]) := by
  unfold scanName
  simp only [wp_bind]
  refine wp_readString ht ?_
  rw [wp_skip]
  unfold parseName nameFits
  rw [ht.strlen_eq]
  cases t with
  | nil =>
    have hpeek : ¬ peek [] = ascii '@' := by decide
    unfold scanQuoted
    rw [if_neg hpeek]
    unfold scanStrW scanLoop
    simp only [wp_bind]
    exact wp_readAt_nil (by simp)
  | cons c t =>
    have hrest : (c :: t ++ [0]).drop 1 = t ++ [(0 : Byte)] := rfl
    have hname : wp (scanQuoted (peek (c :: t)) (c :: t).length)
        (fun r p => (peek (c :: t) = ascii '@' ∨
          strFits (2 * (c :: t).length) ((c :: t).drop 1) (ascii '"') = true) ∧
          r = (if peek (c :: t) = ascii '@' then some ([], (c :: t).drop 1)
            else parseStrW (2 * (c :: t).length) ((c :: t).drop 1) (ascii '"')).map (·.1) ∧
          ∀ res, (if peek (c :: t) = ascii '@' then some ([], (c :: t).drop 1)
            else parseStrW (2 * (c :: t).length) ((c :: t).drop 1) (ascii '"')) = some res →
              p = res.2 ++ [0])
        (fun _ => ¬ (peek (c :: t) = ascii '@' ∨
          strFits (2 * (c :: t).length) ((c :: t).drop 1) (ascii '"') = true)) (t ++ [0]) := by
      unfold scanQuoted
      by_cases hat : peek (c :: t) = ascii '@'
      · rw [if_pos hat, if_pos hat]
        refine ⟨.inl hat, rfl, fun res h => ?_⟩
        cases h
        rfl
      · rw [if_neg hat, if_neg hat]
        refine wp_mono_error (wp_mono (wp_scanStrW (t := t) (ht.drop 1)) ?_) ?_
        · rintro r p ⟨hfits, hr, hp⟩
          exact ⟨.inr hfits, hr, hp⟩
        · rintro e hno (h | h)
          · exact hat h
          · exact hno h
    have hiff : decide (c :: t ≠ [] ∧ (peek (c :: t) = ascii '@' ∨
        strFits (2 * (c :: t).length) ((c :: t).drop 1) (ascii '"') = true)) = true ↔
          (peek (c :: t) = ascii '@' ∨
            strFits (2 * (c :: t).length) ((c :: t).drop 1) (ascii '"') = true) := by simp
    rw [hrest, hiff]
    refine wp_mono hname ?_
    generalize (if peek (c :: t) = ascii '@' then some ([], (c :: t).drop 1)
      else parseStrW (2 * (c :: t).length) ((c :: t).drop 1) (ascii '"')) = parsed
    rintro name p ⟨hfits, rfl, hp⟩
    cases parsed with
    | none =>
      refine ⟨hfits, rfl, fun res h => ?_⟩
      cases h
    | some parsed =>
      obtain ⟨name, rest⟩ := parsed
      rw [hp (name, rest) rfl]
      simp only [Option.map_some, wp_bind]
      refine wp_mono wp_scanSpaces ?_
      rintro _ p rfl
      refine wp_readAt_zero ?_
      generalize rest.dropWhile isspace = q
      by_cases heq : peek q = ascii '='
      · have hlen : 1 ≤ q.length := by
          cases q with
          | nil => cases heq
          | cons d q => exact Nat.succ_pos _
        rw [if_pos heq, if_pos heq]
        simp only [wp_bind, wp_skip, wp_pure, drop_nul hlen]
        refine wp_mono wp_scanSpaces ?_
        rintro _ p rfl
        refine ⟨hfits, rfl, fun res h => ?_⟩
        rw [← Option.some.inj h]
      · rw [if_neg heq, if_neg heq]
        refine ⟨hfits, rfl, fun res h => ?_⟩
        cases h

end Wine.Registry

import Mathlib.Data.List.Induction
import Wine.Ntdll.Env

/-!
# Calls on an environment block

`RtlSetEnvironmentVariable` puts its string in the place of the first string that assigns a value to
the name, or behind the last string. What stands before and behind that place stays, whether the
strings behind it move down, up, or to a new region.
-/

namespace Wine.Ntdll
open Lib Lib.Reading

variable {cm : CaseMap} {name v env rest : List WChar} {strs : List (List WChar)}
  {value : Option (List WChar)} {refuse : Option (BitVec 32)}

section Resize
variable {before old behind free : List WChar} {new : ℕ}

theorem resize_shrink (before behind free : List WChar) (refuse : Option (BitVec 32))
    (h : new < old.length) :
    ∃ gap free', gap.length = new ∧
      resize (before ++ (old ++ (behind ++ free))) before.length old.length
          (before.length + old.length + behind.length) (new - old.length) refuse =
        some (.success, before ++ (gap ++ (behind ++ free'))) := by
  obtain ⟨gap, excess, rfl, hgap⟩ : ∃ gap excess, old = gap ++ excess ∧ gap.length = new :=
    ⟨old.take new, old.drop new, (List.take_append_drop new old).symm,
      List.length_take_of_le (Nat.le_of_lt h)⟩
  refine ⟨gap, (excess ++ (behind ++ free)).drop behind.length, hgap, ?_⟩
  have hmove : moveWithin (before ++ ((gap ++ excess) ++ (behind ++ free)))
      (before.length + gap.length) (before.length + (gap ++ excess).length) behind.length =
        some (before ++ (gap ++ (behind ++ (excess ++ (behind ++ free)).drop behind.length))) := by
    have hread : readAt ((before ++ (gap ++ excess)) ++ (behind ++ free))
        (before.length + (gap ++ excess).length) behind.length = some behind :=
      readAt_append (List.length_append).symm rfl
    rw [List.append_assoc] at hread
    rw [moveWithin, hread, Option.bind_some]
    have hwrite := writeAt_ahead (a := before) (b := gap ++ (excess ++ (behind ++ free)))
      behind (k := gap.length) (by simp only [List.length_append]; omega)
    rwa [List.take_left, List.drop_left, ← List.append_assoc gap excess] at hwrite
  have hneg : (new : ℤ) - ((gap ++ excess).length : ℕ) < 0 := by omega
  have htarget : (((before.length + (gap ++ excess).length : ℕ) : ℤ) +
      ((new : ℤ) - ((gap ++ excess).length : ℕ))).toNat = before.length + gap.length := by omega
  have hrest : before.length + (gap ++ excess).length + behind.length -
      (before.length + (gap ++ excess).length) = behind.length := by omega
  simp only [resize, if_pos hneg, htarget, hrest, hmove, Option.bind_eq_bind, Option.bind_some]
  rw [if_neg, if_neg (Int.not_lt.mpr (Int.le_of_lt hneg))]
  · rfl
  · simp only [List.length_append] at *
    omega

theorem resize_keep :
    resize (before ++ (old ++ (behind ++ free))) before.length old.length
        (before.length + old.length + behind.length) (old.length - old.length) refuse =
      some (.success, before ++ (old ++ (behind ++ free))) := by
  simp only [resize, Int.sub_self, Int.lt_irrefl, if_false, Option.bind_eq_bind, Option.bind_some,
    gt_iff_lt]
  rw [if_neg]
  · rfl
  · simp only [List.length_append, Int.add_zero, Int.toNat_natCast]
    omega

theorem le_length_regionFor (n : ℕ) : n ≤ (regionFor n).length := by
  rw [regionFor, List.length_replicate]
  omega

/-- The old string and what is behind it, written further on. -/
theorem writeAt_gap (before behind : List WChar) {w : List WChar} (h : old.length < new)
    (hw : new + behind.length ≤ w.length) :
    ∃ gap free', gap.length = new ∧
      writeAt (before ++ w) (before.length + (new - old.length)) (old ++ behind) =
        some (before ++ (gap ++ (behind ++ free'))) := by
  refine ⟨w.take (new - old.length) ++ old,
    (w.drop (new - old.length)).drop (old ++ behind).length, ?_, ?_⟩
  · rw [List.length_append, List.length_take_of_le (by omega)]
    omega
  · rw [writeAt_ahead _ (by rw [List.length_append]; omega)]
    simp only [List.append_assoc]

theorem resize_grow (before behind free : List WChar) (refuse : Option (BitVec 32))
    (h : old.length < new) :
    (∃ gap free', gap.length = new ∧
      resize (before ++ (old ++ (behind ++ free))) before.length old.length
          (before.length + old.length + behind.length) (new - old.length) refuse =
        some (.success, before ++ (gap ++ (behind ++ free')))) ∨
    ∃ status, refuse = some status ∧
      resize (before ++ (old ++ (behind ++ free))) before.length old.length
          (before.length + old.length + behind.length) (new - old.length) refuse =
        some (.allocation status, before ++ (old ++ (behind ++ free))) := by
  have hpos : 0 < (new : ℤ) - (old.length : ℕ) := by omega
  have hsize : (((before.length + old.length + behind.length : ℕ) : ℤ) +
      ((new : ℤ) - (old.length : ℕ))).toNat = before.length + new + behind.length := by omega
  have htarget : ((before.length : ℤ) + ((new : ℤ) - (old.length : ℕ))).toNat =
      before.length + (new - old.length) := by omega
  have hrest : before.length + old.length + behind.length - before.length =
      (old ++ behind).length := by
    rw [List.length_append]
    omega
  have hread : readAt (before ++ (old ++ (behind ++ free))) before.length (old ++ behind).length =
      some (old ++ behind) := by
    rw [← List.append_assoc old]
    exact readAt_append rfl rfl
  simp only [resize, if_neg (Int.not_lt.mpr (Int.le_of_lt hpos)), hsize, htarget, hrest,
    Option.bind_eq_bind, Option.bind_some]
  split
  · rename_i hfull
    cases refuse with
    | some status => exact .inr ⟨status, rfl, rfl⟩
    | none =>
      left
      have hfirst : readAt (before ++ (old ++ (behind ++ free))) 0 before.length = some before :=
        readAt_append (a := []) rfl rfl
      have hregion := le_length_regionFor (before.length + new + behind.length)
      have hcopy : writeAt (regionFor (before.length + new + behind.length)) 0 before =
          some (before ++ (regionFor (before.length + new + behind.length)).drop before.length) :=
        writeAt_append before (a := []) (b := regionFor _) rfl (by omega)
      obtain ⟨gap, free', hgap, hwrite⟩ := writeAt_gap before behind
        (w := (regionFor (before.length + new + behind.length)).drop before.length) h
        (by rw [List.length_drop]; omega)
      refine ⟨gap, free', hgap, ?_⟩
      rw [hfirst]
      simp only [Option.bind_some, hread]
      rw [hcopy]
      simp only [Option.bind_some, hwrite]
      rfl
  · rename_i hfits
    left
    obtain ⟨gap, free', hgap, hwrite⟩ := writeAt_gap before behind
      (w := old ++ (behind ++ free)) h (by simp only [List.length_append] at *; omega)
    refine ⟨gap, free', hgap, ?_⟩
    rw [moveWithin, hread, Option.bind_some, hwrite]
    rfl

end Resize

section Assign

/-- The strings that a call puts into the place of the string it found. -/
def newStrings (name : List WChar) : Option (List WChar) → List (List WChar)
  | some value => [name ++ equalsSign :: value]
  | none => []

def others (cm : CaseMap) (name s : List WChar) : Bool := !(valueOf cm name s).isSome

/-- The strings of the block after a call that succeeds. -/
def assign (cm : CaseMap) (name : List WChar) (value : Option (List WChar))
    (strs : List (List WChar)) : List (List WChar) :=
  strs.takeWhile (others cm name) ++ (newStrings name value ++
    (strs.dropWhile (others cm name)).tail)

theorem chunk_eq : chunk name value = encode (newStrings name value) := by
  cases value with
  | none => rfl
  | some value => simp [chunk, newStrings]

theorem values_append {strs' : List (List WChar)} :
    values cm name (strs ++ strs') = values cm name strs ++ values cm name strs' :=
  List.filterMap_append

theorem values_takeWhile : values cm name (strs.takeWhile (others cm name)) = [] := by
  refine List.filterMap_eq_nil_iff.mpr fun s hs => ?_
  simpa [others] using List.mem_takeWhile_imp hs

theorem values_eq_dropWhile (strs : List (List WChar)) :
    values cm name strs = values cm name (strs.dropWhile (others cm name)) := by
  conv_lhs => rw [← List.takeWhile_append_dropWhile (p := others cm name) (l := strs)]
  rw [values_append, values_takeWhile, List.nil_append]

theorem dropWhile_cases (cm : CaseMap) (name : List WChar) (strs : List (List WChar)) :
    strs.dropWhile (others cm name) = [] ∧ values cm name strs = [] ∨
    ∃ s v, strs.dropWhile (others cm name) = s :: (strs.dropWhile (others cm name)).tail ∧
      valueOf cm name s = some v := by
  cases h : strs.dropWhile (others cm name) with
  | nil => exact .inl ⟨rfl, by rw [values_eq_dropWhile, h]; rfl⟩
  | cons s rest =>
    have hne : strs.dropWhile (others cm name) ≠ [] := by rw [h]; exact List.cons_ne_nil s rest
    have hhead := List.head_dropWhile_not (others cm name) hne
    simp only [h, List.head_cons, others, Bool.not_eq_false'] at hhead
    obtain ⟨v, hv⟩ := Option.isSome_iff_exists.mp hhead
    exact .inr ⟨s, v, rfl, hv⟩

theorem values_newStrings (hne : name ≠ []) (hsign : equalsSign ∉ name.tail) :
    values cm name (newStrings name value) = value.toList := by
  cases value with
  | none => rfl
  | some v => simp [newStrings, values, valueOf_new hne hsign]

/-- A call changes the first value of its name and no value of another name. -/
theorem values_assign (hne : name ≠ []) (hsign : equalsSign ∉ name.tail) {n : List WChar} :
    values cm n (assign cm name value strs) =
      if fold cm name = fold cm n then value.toList ++ (values cm n strs).tail
      else values cm n strs := by
  split
  · rename_i h
    have hn : values cm n = values cm name := by
      funext l
      rw [values, values, valueOf_congr h]
    rw [hn, assign, values_append, values_append, values_takeWhile, List.nil_append,
      values_newStrings hne hsign, values_eq_dropWhile strs]
    congr 1
    obtain ⟨hnil, -⟩ | ⟨s, v, hcons, hv⟩ := dropWhile_cases cm name strs
    · rw [hnil]
      rfl
    · rw [hcons]
      simp [values, hv]
  · rename_i h
    have hnew : values cm n (newStrings name value) = [] := by
      cases value with
      | none => rfl
      | some v => simp [newStrings, values, valueOf_eq_none_of_ne (valueOf_new hne hsign) h]
    have htail : values cm n (strs.dropWhile (others cm name)).tail =
        values cm n (strs.dropWhile (others cm name)) := by
      obtain ⟨hnil, -⟩ | ⟨s, v, hcons, hv⟩ := dropWhile_cases cm name strs
      · rw [hnil]
        rfl
      · rw [hcons, List.tail_cons, values, values,
          List.filterMap_cons_none (valueOf_eq_none_of_ne hv h)]
    rw [assign, values_append, values_append, hnew, List.nil_append, htail, ← values_append,
      List.takeWhile_append_dropWhile]

end Assign

section Set

theorem EnvBlock.walk_size (hb : EnvBlock strs env) :
    walk (fun _ => some false) env env.length 0 = some (encode strs).length := by
  have h : walk (fun _ => some false) env env.length 0 = _ := hb.walk_eq fun _ _ _ => rfl
  rwa [Bool.not_false, List.takeWhile_eq_self_iff.mpr fun _ _ => rfl] at h

theorem EnvBlock.walk_name {stop : List WChar → Option Bool} (hb : EnvBlock strs env)
    (hstop : ∀ s, 0 ∉ s → ∀ t, stop (s ++ 0 :: t) = some (valueOf cm name s).isSome) :
    walk stop env env.length 0 = some (encode (strs.takeWhile (others cm name))).length :=
  hb.walk_eq hstop

theorem EnvBlock.assign_newStrings (hb : EnvBlock strs env) (cm : CaseMap) (hne : name ≠ [])
    (hname : 0 ∉ name) (hvalue : ∀ v ∈ value, 0 ∉ v) :
    ∀ s ∈ assign cm name value strs, s ≠ [] ∧ 0 ∉ s := by
  intro s hs
  obtain hs | hs | hs : s ∈ strs.takeWhile (others cm name) ∨ s ∈ newStrings name value ∨
      s ∈ (strs.dropWhile (others cm name)).tail := by
    simpa only [assign, List.mem_append] using hs
  · exact hb.1 s (List.takeWhile_subset _ hs)
  · cases value with
    | none => cases hs
    | some v =>
      obtain rfl := List.mem_singleton.mp hs
      refine ⟨by simp [hne], ?_⟩
      rw [List.mem_append, List.mem_cons, not_or, not_or]
      exact ⟨hname, by decide, hvalue v rfl⟩
  · exact hb.1 s (List.dropWhile_subset _ (List.mem_of_mem_tail hs))

theorem length_chunk : (chunk name value).length =
    value.elim 0 fun v => name.length + v.length + 2 := by
  cases value with
  | none => rfl
  | some v =>
    simp only [chunk, List.length_append, List.length_cons, List.length_nil, Option.elim_some]
    omega

theorem replaceAt_spec (name : List WChar) (value : Option (List WChar))
    (refuse : Option (BitVec 32)) (rest : List WChar) (before old behind : List (List WChar)) :
    (∃ free, replaceAt (encode before ++ (encode old ++ (encode behind ++ 0 :: rest)))
        (encode before).length (encode old).length ((encode (before ++ (old ++ behind))).length + 1)
        name value refuse =
      some (.success, encode (before ++ (newStrings name value ++ behind)) ++ 0 :: free)) ∨
    (value ≠ none ∧ ∃ status, refuse = some status ∧
      replaceAt (encode before ++ (encode old ++ (encode behind ++ 0 :: rest)))
        (encode before).length (encode old).length ((encode (before ++ (old ++ behind))).length + 1)
        name value refuse =
      some (.allocation status, encode before ++ (encode old ++ (encode behind ++ 0 :: rest)))) := by
  have hsize : (encode (before ++ (old ++ behind))).length + 1 =
      (encode before).length + (encode old).length + (encode behind ++ [0]).length := by
    simp only [encode_append, List.length_append, List.length_singleton]
    omega
  have hrest : encode behind ++ 0 :: rest = (encode behind ++ [0]) ++ rest := by simp
  have hdone : ∀ gap free, gap.length = (chunk name value).length →
      resize (encode before ++ (encode old ++ ((encode behind ++ [0]) ++ rest)))
        (encode before).length (encode old).length
        ((encode before).length + (encode old).length + (encode behind ++ [0]).length)
        ((chunk name value).length - (encode old).length) refuse =
        some (.success, encode before ++ (gap ++ ((encode behind ++ [0]) ++ free))) →
      replaceAt (encode before ++ (encode old ++ ((encode behind ++ [0]) ++ rest)))
        (encode before).length (encode old).length
        ((encode before).length + (encode old).length + (encode behind ++ [0]).length)
        name value refuse =
      some (.success, encode (before ++ (newStrings name value ++ behind)) ++ 0 :: free) := by
    intro gap free hgap h
    rw [replaceAt, ← length_chunk, h]
    simp only [Option.bind_eq_bind, Option.bind_some, if_pos]
    rw [writeAt_replace rfl hgap.symm, chunk_eq]
    simp
  rw [hsize, hrest]
  obtain h | h | h := Nat.lt_trichotomy (chunk name value).length (encode old).length
  · obtain ⟨gap, free, hgap, hresize⟩ := resize_shrink (encode before)
      (encode behind ++ [0]) rest refuse h
    exact .inl ⟨free, hdone gap free hgap hresize⟩
  · refine .inl ⟨rest, hdone (encode old) rest h.symm ?_⟩
    rw [h]
    exact resize_keep
  · obtain ⟨gap, free, hgap, hresize⟩ | ⟨status, rfl, hresize⟩ := resize_grow
      (encode before) (encode behind ++ [0]) rest refuse h
    · exact .inl ⟨free, hdone gap free hgap hresize⟩
    · refine .inr ⟨?_, status, rfl, ?_⟩
      · rintro rfl
        exact absurd h (Nat.not_lt_zero _)
      · rw [replaceAt, ← length_chunk, hresize]
        rfl

/-- What a call does to a block with a name that it accepts. -/
theorem setVariable_spec (refuse : Option (BitVec 32)) (hcm : KeepsMarks cm)
    (hb : EnvBlock strs env) (hne : name ≠ []) (hname : 0 ∉ name)
    (hsign : equalsSign ∉ name.tail) (hvalue : ∀ v ∈ value, 0 ∉ v) :
    (value = none ∧ values cm name strs = [] ∧
      setVariable cm env name value refuse = some (.variableNotFound, env)) ∨
    (¬(value = none ∧ values cm name strs = []) ∧
      ∃ env', EnvBlock (assign cm name value strs) env' ∧
        setVariable cm env name value refuse = some (.success, env')) ∨
    (value ≠ none ∧ ∃ status, refuse = some status ∧
      setVariable cm env name value refuse = some (.allocation status, env)) := by
  have hsize := hb.walk_size
  have hplace := hb.walk_name fun s hs t =>
    placeAt_eq (t := t) hcm hne hname hsign hs
  have hassign := hb.assign_newStrings cm hne hname hvalue
  obtain ⟨hstrs, rest, rfl⟩ := hb
  have hsplit := List.takeWhile_append_dropWhile (p := others cm name) (l := strs)
  rw [setVariable, hsize, hplace]
  simp only [Option.bind_eq_bind, Option.bind_some]
  obtain ⟨hnil, hvalues⟩ | ⟨s, v, hcons, hv⟩ := dropWhile_cases cm name strs
  · rw [hnil, List.append_nil] at hsplit
    have hget : (encode strs ++ 0 :: rest)[(encode strs).length]? = some 0 := by simp
    rw [hsplit, hget]
    simp only [Option.bind_some, ne_eq, not_true_eq_false, not_false_eq_true, and_true, if_false]
    by_cases hnone : value = none
    · rw [if_pos hnone]
      exact .inl ⟨hnone, hvalues, rfl⟩
    · rw [if_neg hnone]
      right
      have h := replaceAt_spec name value refuse rest strs [] []
      simp only [List.append_nil, encode_nil, List.nil_append, List.length_nil] at h
      have hnew : assign cm name value strs = strs ++ newStrings name value := by
        rw [assign, hnil, hsplit, List.tail_nil, List.append_nil]
      rw [hnew] at hassign ⊢
      obtain ⟨free, h⟩ | ⟨-, status, hstatus, h⟩ := h
      · exact .inl ⟨fun hv => hnone hv.1, _, ⟨hassign, free, rfl⟩, h⟩
      · exact .inr ⟨hnone, status, hstatus, h⟩
  · right
    have hvalues : ¬(value = none ∧ values cm name strs = []) := by
      rintro ⟨-, hnil⟩
      rw [values_eq_dropWhile, hcons, values, List.filterMap_cons_some hv] at hnil
      cases hnil
    rw [assign] at hassign ⊢
    generalize strs.takeWhile (others cm name) = before at *
    generalize (strs.dropWhile (others cm name)).tail = behind at *
    rw [hcons] at hsplit
    subst hsplit
    obtain ⟨hs, hzero⟩ := hstrs s (by simp)
    obtain ⟨c, s, rfl⟩ := List.exists_cons_of_ne_nil hs
    have hc : c ≠ 0 := by
      rintro rfl
      simp at hzero
    have henv : encode (before ++ (c :: s) :: behind) ++ 0 :: rest =
        encode before ++ (encode [c :: s] ++ (encode behind ++ 0 :: rest)) := by
      simp
    have hget : (encode (before ++ (c :: s) :: behind) ++ 0 :: rest)[(encode before).length]? =
        some c := by
      simp
    have hdrop : (encode (before ++ (c :: s) :: behind) ++ 0 :: rest).drop (encode before).length =
        (c :: s) ++ 0 :: (encode behind ++ 0 :: rest) := by
      simp
    have hold : (c :: s).length + 1 = (encode [c :: s]).length := by simp
    have h := replaceAt_spec name value refuse rest before [c :: s] behind
    rw [hget, hdrop, strlenW_append hzero]
    simp only [Option.bind_some, ne_eq, hc, not_false_eq_true, not_true_eq_false, and_false,
      if_false, if_true, Option.map_some]
    rw [henv, hold]
    obtain ⟨free, h⟩ | ⟨hvalue, status, hstatus, h⟩ := h
    · exact .inl ⟨hvalues, _, ⟨hassign, free, rfl⟩, h⟩
    · exact .inr ⟨hvalue, status, hstatus, h⟩

end Set

section Query

/-- What a query answers when the first value of the name is `found`. -/
def answer (found : Option (List WChar)) (out : OutString) : EnvStatus × OutString :=
  match found with
  | none => (.variableNotFound, { out with length := 0 })
  | some v =>
    let length := v.length * 2 % 2 ^ 16
    let n := min (length + 2) out.buffer.length
    if length ≤ out.buffer.length then
      (.success, ⟨length, (bytesOfChars (v ++ [0])).take n ++ out.buffer.drop n⟩)
    else (.bufferTooSmall, { out with length })

theorem length_bytesOfChars {s : List WChar} : (bytesOfChars s).length = 2 * s.length := by
  induction s with
  | nil => rfl
  | cons c s ih =>
    rw [bytesOfChars, List.flatMap_cons, List.length_append, ← bytesOfChars, ih,
      length_littleEndian, List.length_cons]
    omega

theorem bytesOfChars_append {s t : List WChar} :
    bytesOfChars (s ++ t) = bytesOfChars s ++ bytesOfChars t :=
  List.flatMap_append

theorem values_nil : values cm [] strs = [] := by
  refine List.filterMap_eq_nil_iff.mpr fun s _ => Option.eq_none_iff_forall_not_mem.mpr ?_
  intro v hv
  obtain ⟨m, -, hm, -, hfold⟩ := valueOf_eq_some.mp hv
  exact hm (List.map_eq_nil_iff.mp hfold)

theorem readAt_prefix {s t : List (BitVec 8)} {n : ℕ} (h : n ≤ s.length) :
    readAt (s ++ t) 0 n = some (s.take n) := by
  rw [readAt, if_pos (by rw [List.length_append]; omega), List.drop_zero,
    List.take_append_of_le_length h]

theorem copy_answer {out : OutString} (hv : 0 ∉ v) :
    (do
      let length := (← strlenW (v ++ 0 :: rest)) * 2 % 2 ^ 16
      if length ≤ out.buffer.length then
        let n := min (length + 2) out.buffer.length
        let bytes ← readAt (bytesOfChars (v ++ 0 :: rest)) 0 n
        return (EnvStatus.success, (⟨length, ← writeAt out.buffer 0 bytes⟩ : OutString))
      else return (EnvStatus.bufferTooSmall, { out with length })) =
    some (answer (some v) out) := by
  rw [strlenW_append hv]
  simp only [Option.bind_eq_bind, Option.bind_some, answer]
  split
  · have hmod := Nat.mod_le (v.length * 2) (2 ^ 16)
    generalize v.length * 2 % 2 ^ 16 = length at *
    have hn : min (length + 2) out.buffer.length ≤ (bytesOfChars (v ++ [0])).length := by
      rw [length_bytesOfChars, List.length_append, List.length_singleton]
      omega
    have hsplit : v ++ 0 :: rest = (v ++ [0]) ++ rest := by simp
    have hlen : ((bytesOfChars (v ++ [0])).take (min (length + 2) out.buffer.length)).length =
        min (length + 2) out.buffer.length := List.length_take_of_le hn
    rw [hsplit, bytesOfChars_append, readAt_prefix hn]
    simp only [Option.bind_some]
    have hwrite := writeAt_append ((bytesOfChars (v ++ [0])).take
      (min (length + 2) out.buffer.length)) (a := []) (b := out.buffer) rfl
      (by rw [hlen]; exact Nat.min_le_right _ _)
    rw [List.nil_append, List.nil_append, hlen, List.length_nil] at hwrite
    rw [hwrite]
    rfl
  · rfl

/-- A query answers with the first value of the name. -/
theorem query_spec (hcm : KeepsMarks cm) (hb : EnvBlock strs env) {u : UnicodeString}
    (hlen : u.length = 2 * u.chars.length) (hu : 0 ∉ u.chars) (out : OutString) :
    rtlQueryEnvironmentVariable_U cm env u out =
      some (answer (values cm u.chars strs).head? out) := by
  rw [rtlQueryEnvironmentVariable_U]
  by_cases hempty : u.length / 2 = 0
  · have hnil : u.chars = [] := List.eq_nil_of_length_eq_zero (by omega)
    rw [if_pos hempty, hnil, values_nil]
    rfl
  · have hne : u.chars ≠ [] := by
      intro h
      rw [h] at hlen
      simp at hlen
      omega
    have hplace := hb.walk_name fun s hs t => foundAt_eq (t := t) hcm hne hu hs
    rw [if_neg hempty, envFindVariable, hplace]
    obtain ⟨hstrs, rest, rfl⟩ := hb
    have hsplit := List.takeWhile_append_dropWhile (p := others cm u.chars) (l := strs)
    simp only [Option.bind_eq_bind, Option.bind_some]
    obtain ⟨hnil, hvalues⟩ | ⟨s, v, hcons, hv⟩ := dropWhile_cases cm u.chars strs
    · rw [hnil, List.append_nil] at hsplit
      have hget : (encode strs ++ 0 :: rest)[(encode strs).length]? = some 0 := by simp
      rw [hsplit, hget, hvalues]
      rfl
    · have hhead : (values cm u.chars strs).head? = some v := by
        rw [values_eq_dropWhile, hcons, values, List.filterMap_cons_some hv]
        rfl
      rw [hhead]
      generalize strs.takeWhile (others cm u.chars) = before at *
      generalize (strs.dropWhile (others cm u.chars)).tail = behind at *
      rw [hcons] at hsplit
      subst hsplit
      obtain ⟨hs, hzero⟩ := hstrs s (by simp)
      obtain ⟨m, rfl, hm, hsign, hfold⟩ := valueOf_eq_some.mp hv
      obtain ⟨c, m, rfl⟩ := List.exists_cons_of_ne_nil hm
      have hc : c ≠ 0 := by
        rintro rfl
        simp at hzero
      have hget : (encode (before ++ ((c :: m) ++ equalsSign :: v) :: behind) ++
          0 :: rest)[(encode before).length]? = some c := by
        simp
      have hlen : (c :: m).length = u.chars.length := by
        simpa [fold] using congrArg List.length hfold
      have hdrop : (encode (before ++ ((c :: m) ++ equalsSign :: v) :: behind) ++
          0 :: rest).drop ((encode before).length + u.chars.length + 1) =
          v ++ 0 :: (encode behind ++ 0 :: rest) := by
        have hpre : (encode before ++ (c :: m) ++ [equalsSign]).length =
            (encode before).length + u.chars.length + 1 := by
          simp only [List.length_append, List.length_singleton, hlen]
        rw [← hpre]
        simp
      rw [hget]
      simp only [Option.bind_some, if_neg hc, Option.pure_def, hdrop]
      apply copy_answer
      intro hin
      exact hzero (List.mem_append_right _ (List.mem_cons_of_mem _ hin))

end Query

section Calls

/-- A counted string whose characters are there and hold no NUL. -/
def UnicodeString.WellFormed (u : UnicodeString) : Prop :=
  u.length = 2 * u.chars.length ∧ u.length < 2 ^ 16 ∧ 0 ∉ u.chars

/-- A call of `RtlSetEnvironmentVariable`; `refuse` is how an allocation fails. -/
structure SetCall where
  name : Option UnicodeString
  value : Option UnicodeString
  refuse : Option (BitVec 32)

namespace SetCall

def WellFormed (c : SetCall) : Prop :=
  (∀ u ∈ c.name, u.WellFormed) ∧ ∀ u ∈ c.value, u.WellFormed

def run (cm : CaseMap) (env : List WChar) (c : SetCall) : Option (EnvStatus × List WChar) :=
  rtlSetEnvironmentVariable cm env c.name c.value c.refuse

/-- There is no name, or it has an equals sign behind its first character. -/
def Rejected (c : SetCall) : Prop :=
  ∀ u ∈ c.name, u.buffer = none ∨ u.length = 0 ∨ equalsSign ∈ u.chars.tail

def Names (cm : CaseMap) (name : List WChar) (c : SetCall) : Prop :=
  ∃ u ∈ c.name, fold cm u.chars = fold cm name

instance {c : SetCall} : Decidable (c.Names cm name) :=
  decidable_of_iff (c.name.any fun u => fold cm u.chars = fold cm name) (by
    cases h : c.name <;> simp [Names, h])

/-- The characters of the value, if there is one. -/
def newValue (c : SetCall) : Option (List WChar) := c.value.map UnicodeString.chars

end SetCall

/-- One call after the other, each on the block the one before left. -/
def setAll (cm : CaseMap) : List WChar → List SetCall → Option (List EnvStatus × List WChar)
  | env, [] => some ([], env)
  | env, c :: calls => do
    let (status, env) ← c.run cm env
    let (statuses, env) ← setAll cm env calls
    return (status :: statuses, env)

/-- The value of the last call for the name that succeeded: none if there was no such call, no value
if it was to delete. -/
def lastSet (cm : CaseMap) (name : List WChar) (calls : List (SetCall × EnvStatus)) :
    Option (Option (List WChar)) :=
  calls.foldl (fun last c =>
    if c.2 = .success ∧ c.1.Names cm name then some c.1.newValue else last) none

/-- How a call ends on a block with the strings `strs`. -/
def Ends (cm : CaseMap) (strs : List (List WChar)) (env : List WChar) (c : SetCall)
    (status : EnvStatus) (env' : List WChar) : Prop :=
  (status ≠ .success → env' = env) ∧
  (c.Rejected → status = .invalidParameter ∨ status = .invalidParameter1) ∧
  (¬c.Rejected → c.value = none →
    (status = .variableNotFound ∧ ∀ u ∈ c.name, values cm u.chars strs = []) ∨
      (status = .success ∧ ∀ u ∈ c.name, values cm u.chars strs ≠ [])) ∧
  (¬c.Rejected → c.value ≠ none → status = .success ∨ ∃ code ∈ c.refuse, status = .allocation code)

/-- The effect of a call on the values of one name. -/
def afterCall (cm : CaseMap) (name : List WChar) (vs : List (List WChar))
    (c : SetCall × EnvStatus) : List (List WChar) :=
  if c.2 = .success ∧ c.1.Names cm name then c.1.newValue.toList ++ vs.tail else vs

theorem SetCall.run_spec (hcm : KeepsMarks cm) (hb : EnvBlock strs env) {c : SetCall}
    (hc : c.WellFormed) :
    ∃ status env' strs', c.run cm env = some (status, env') ∧ EnvBlock strs' env' ∧
      Ends cm strs env c status env' ∧
      ∀ name, values cm name strs' = afterCall cm name (values cm name strs) (c, status) := by
  -- a call that does not succeed leaves the block and its strings
  have hfail : ∀ status, status ≠ EnvStatus.success → c.run cm env = some (status, env) →
      Ends cm strs env c status env →
      ∃ status env' strs', c.run cm env = some (status, env') ∧ EnvBlock strs' env' ∧
        Ends cm strs env c status env' ∧
        ∀ name, values cm name strs' = afterCall cm name (values cm name strs) (c, status) :=
    fun status hne hrun hends => ⟨status, env, strs, hrun, hb, hends, fun name => by
      rw [afterCall, if_neg fun h => hne h.1]⟩
  obtain ⟨name, value, refuse⟩ := c
  cases name with
  | none =>
    have hrej : (SetCall.mk none value refuse).Rejected := fun u hu => by cases hu
    exact hfail .invalidParameter1 (by decide) rfl ⟨fun _ => rfl, fun _ => .inr rfl,
      fun h => absurd hrej h, fun h => absurd hrej h⟩
  | some u =>
    obtain ⟨hlen, -, hzero⟩ := hc.1 u rfl
    by_cases hempty : u.buffer = none ∨ u.length = 0
    · have hrej : (SetCall.mk (some u) value refuse).Rejected := by
        rintro u' ⟨⟩
        exact hempty.elim .inl fun h => .inr (.inl h)
      refine hfail .invalidParameter1 (by decide) ?_ ⟨fun _ => rfl, fun _ => .inr rfl,
        fun h => absurd hrej h, fun h => absurd hrej h⟩
      rw [run, rtlSetEnvironmentVariable]
      exact if_pos hempty
    by_cases hsign : equalsSign ∈ u.chars.tail
    · have hrej : (SetCall.mk (some u) value refuse).Rejected := by
        rintro u' ⟨⟩
        exact .inr (.inr hsign)
      refine hfail .invalidParameter (by decide) ?_ ⟨fun _ => rfl, fun _ => .inl rfl,
        fun h => absurd hrej h, fun h => absurd hrej h⟩
      rw [run, rtlSetEnvironmentVariable]
      simp only [if_neg hempty, List.drop_one, if_pos hsign]
    have hacc : ¬(SetCall.mk (some u) value refuse).Rejected := by
      intro h
      obtain h | h | h := h u rfl
      · exact hempty (.inl h)
      · exact hempty (.inr h)
      · exact hsign h
    have hrun : (SetCall.mk (some u) value refuse).run cm env =
        setVariable cm env u.chars (value.map UnicodeString.chars) refuse := by
      rw [run, rtlSetEnvironmentVariable]
      simp only [if_neg hempty, List.drop_one, if_neg hsign]
    have hne : u.chars ≠ [] := by
      intro h
      rw [h] at hlen
      exact hempty (.inr hlen)
    have hvalue : ∀ v ∈ value.map UnicodeString.chars, 0 ∉ v := by
      intro v hv
      obtain ⟨w, hw, rfl⟩ := Option.map_eq_some_iff.mp hv
      exact (hc.2 w hw).2.2
    obtain ⟨hnone, hvalues, h⟩ | ⟨hsome, env', hb', h⟩ | ⟨hsome, status, rfl, h⟩ :=
      setVariable_spec refuse hcm hb hne hzero hsign hvalue
    · refine hfail .variableNotFound (by decide) (hrun.trans h) ⟨fun _ => rfl,
        fun hrej => absurd hrej hacc, fun _ _ => .inl ⟨rfl, ?_⟩, fun _ hv => ?_⟩
      · rintro u' ⟨⟩
        exact hvalues
      · exact absurd (Option.map_eq_none_iff.mp hnone) hv
    · refine ⟨.success, env', _, hrun.trans h, hb', ⟨fun h => absurd rfl h,
        fun hrej => absurd hrej hacc, fun _ hv => .inr ⟨rfl, ?_⟩, fun _ _ => .inl rfl⟩, ?_⟩
      · rintro u' ⟨⟩ hnil
        exact hsome ⟨Option.map_eq_none_iff.mpr hv, hnil⟩
      · intro n
        rw [values_assign hne hsign, afterCall]
        refine if_congr ?_ rfl rfl
        constructor
        · intro hfold
          exact ⟨rfl, u, rfl, hfold⟩
        · rintro ⟨-, u', ⟨⟩, hfold⟩
          exact hfold
    · refine hfail (.allocation status) (by simp) (hrun.trans h) ⟨fun _ => rfl,
        fun hrej => absurd hrej hacc, fun _ hv => ?_, fun _ _ => .inr ⟨status, rfl, rfl⟩⟩
      exact absurd (Option.map_eq_none_iff.mpr hv) hsome

theorem setAll_spec (hcm : KeepsMarks cm) {calls : List SetCall} (hb : EnvBlock strs env)
    (hcalls : ∀ c ∈ calls, c.WellFormed) :
    ∃ statuses env' strs', setAll cm env calls = some (statuses, env') ∧
      statuses.length = calls.length ∧ EnvBlock strs' env' ∧
      ∀ name, values cm name strs' =
        (calls.zip statuses).foldl (afterCall cm name) (values cm name strs) := by
  induction calls generalizing env strs with
  | nil => exact ⟨[], env, strs, rfl, rfl, hb, fun _ => rfl⟩
  | cons c calls ih =>
    obtain ⟨status, env₁, strs₁, hrun, hb₁, -, hvalues₁⟩ :=
      SetCall.run_spec hcm hb (hcalls c (by simp))
    obtain ⟨statuses, env₂, strs₂, hall, hlen, hb₂, hvalues₂⟩ :=
      ih hb₁ fun c hc => hcalls c (by simp [hc])
    refine ⟨status :: statuses, env₂, strs₂, ?_, by simp [hlen], hb₂, fun name => ?_⟩
    · rw [setAll, hrun]
      simp only [Option.bind_eq_bind, Option.bind_some, hall]
      rfl
    · rw [hvalues₂, hvalues₁]
      rfl

theorem afterCall_length {vs : List (List WChar)} (c : SetCall × EnvStatus)
    (h : vs.length ≤ 1) : (afterCall cm name vs c).length ≤ 1 := by
  rw [afterCall]
  split
  · cases c.1.newValue <;> simp only [Option.toList_none, Option.toList_some, List.length_append,
      List.length_tail, List.length_nil, List.length_singleton] <;> omega
  · exact h

/-- The last call for a name that succeeded decides what its first value is. -/
theorem foldl_afterCall (cm : CaseMap) (name : List WChar) (vs : List (List WChar))
    (calls : List (SetCall × EnvStatus)) :
    (vs.length ≤ 1 → (calls.foldl (afterCall cm name) vs).length ≤ 1) ∧
      match lastSet cm name calls with
      | none => calls.foldl (afterCall cm name) vs = vs
      | some (some v) => (calls.foldl (afterCall cm name) vs).head? = some v ∧
          ∃ c ∈ calls, c.1.newValue = some v
      | some none => vs.length ≤ 1 → calls.foldl (afterCall cm name) vs = [] := by
  induction calls using List.reverseRecOn with
  | nil => exact ⟨id, rfl⟩
  | append_singleton calls c ih =>
    obtain ⟨hlen, hlast⟩ := ih
    have hstep : lastSet cm name (calls ++ [c]) =
        if c.2 = .success ∧ c.1.Names cm name then some c.1.newValue
        else lastSet cm name calls := by
      rw [lastSet, List.foldl_append]
      rfl
    rw [hstep, List.foldl_append, List.foldl_cons, List.foldl_nil]
    refine ⟨fun h => afterCall_length c (hlen h), ?_⟩
    rw [afterCall]
    by_cases hcall : c.2 = .success ∧ c.1.Names cm name
    · rw [if_pos hcall, if_pos hcall]
      cases hv : c.1.newValue with
      | none =>
        intro h
        rw [Option.toList_none, List.nil_append]
        exact List.eq_nil_of_length_eq_zero (by rw [List.length_tail]; have := hlen h; omega)
      | some v => exact ⟨rfl, c, by simp, hv⟩
    · rw [if_neg hcall, if_neg hcall]
      cases hl : lastSet cm name calls with
      | none => simpa only [hl] using hlast
      | some last =>
        cases last with
        | none => simpa only [hl] using hlast
        | some v =>
          simp only [hl] at hlast
          obtain ⟨hhead, c', hc', hv⟩ := hlast
          exact ⟨hhead, c', by simp [hc'], hv⟩

/-- A query that finds the value `v`. -/
def Returns (v : List WChar) (out : OutString) (r : EnvStatus × OutString) : Prop :=
  r.2.length = 2 * v.length ∧
  if 2 * v.length ≤ out.buffer.length then
    r.1 = .success ∧ r.2.buffer.take (2 * v.length) = bytesOfChars v
  else r.1 = .bufferTooSmall ∧ r.2.buffer = out.buffer

theorem returns_answer {out : OutString} (hv : 2 * v.length < 2 ^ 16) :
    Returns v out (answer (some v) out) := by
  have hmod : v.length * 2 % 2 ^ 16 = 2 * v.length := by
    rw [Nat.mul_comm, Nat.mod_eq_of_lt hv]
  rw [Returns, answer]
  simp only [hmod]
  by_cases hfits : 2 * v.length ≤ out.buffer.length
  · have hmin : 2 * v.length ≤ min (2 * v.length + 2) out.buffer.length := by omega
    simp only [if_pos hfits, true_and]
    have hlen : 2 * v.length ≤
        ((bytesOfChars (v ++ [0])).take (min (2 * v.length + 2) out.buffer.length)).length := by
      rw [List.length_take, length_bytesOfChars, List.length_append, List.length_singleton]
      omega
    rw [List.take_append_of_le_length hlen, List.take_take, Nat.min_eq_left hmin,
      bytesOfChars_append, ← length_bytesOfChars, List.take_left]
  · simp only [if_neg hfits, true_and]

theorem keepsMarks_wineCaseMap : KeepsMarks wineCaseMap :=
  ⟨fun _ => tolowerW_eq_iff (by decide), fun _ => tolowerW_eq_iff (by decide)⟩

/-- Calls on a block with the strings `strs` keep it a block, a query afterwards answers with what
the last successful call for the name says, and another call ends as its name and value ask for. A
name that was deleted is not found if there was at most one string for it at first. -/
theorem environment_map {calls : List SetCall} (hb : EnvBlock strs env)
    (hcalls : ∀ c ∈ calls, c.WellFormed) :
    ∃ statuses env' strs', setAll wineCaseMap env calls = some (statuses, env') ∧
      statuses.length = calls.length ∧ EnvBlock strs' env' ∧
      (∀ u : UnicodeString, u.WellFormed → ∀ out,
        ∃ r, rtlQueryEnvironmentVariable_U wineCaseMap env' u out = some r ∧
          match lastSet wineCaseMap u.chars (calls.zip statuses) with
          | none => rtlQueryEnvironmentVariable_U wineCaseMap env u out = some r ∧
              (values wineCaseMap u.chars strs = [] →
                r = (.variableNotFound, { out with length := 0 }))
          | some (some v) => Returns v out r
          | some none => (values wineCaseMap u.chars strs).length ≤ 1 →
              r = (.variableNotFound, { out with length := 0 })) ∧
      ∀ c : SetCall, c.WellFormed → ∃ status env'',
        c.run wineCaseMap env' = some (status, env'') ∧
          Ends wineCaseMap strs' env' c status env'' := by
  obtain ⟨statuses, env', strs', hall, hlen, hb', hvalues⟩ :=
    setAll_spec keepsMarks_wineCaseMap hb hcalls
  refine ⟨statuses, env', strs', hall, hlen, hb', fun u hu out => ?_, fun c hc => ?_⟩
  · refine ⟨_, query_spec keepsMarks_wineCaseMap hb' hu.1 hu.2.2 out, ?_⟩
    have hlast := (foldl_afterCall wineCaseMap u.chars (values wineCaseMap u.chars strs)
      (calls.zip statuses)).2
    rw [← hvalues] at hlast
    split at hlast
    · rw [hlast]
      refine ⟨query_spec keepsMarks_wineCaseMap hb hu.1 hu.2.2 out, fun hnil => ?_⟩
      rw [hnil]
      rfl
    · rename_i v _
      obtain ⟨hhead, c, hmem, hv⟩ := hlast
      rw [hhead]
      obtain ⟨w, hw, rfl⟩ := Option.map_eq_some_iff.mp hv
      have hwf := (hcalls c.1 (List.of_mem_zip hmem).1).2 w hw
      exact returns_answer (hwf.1 ▸ hwf.2.1)
    · intro hone
      rw [hlast hone]
      rfl
  · obtain ⟨status, env'', -, hrun, -, hends, -⟩ :=
      SetCall.run_spec keepsMarks_wineCaseMap hb' hc
    exact ⟨status, env'', hrun, hends⟩

def counted (s : List WChar) : UnicodeString := ⟨2 * s.length, some s⟩

def sampleStrings : List (List WChar) := [wide "=C:=C:\\a", wide "Path=bin", wide "X=1"]

/-- A replacement by a longer value, a deletion, a new variable and a name that is rejected. -/
def sampleCalls : List SetCall :=
  [⟨some (counted (wide "PATH")), some (counted (wide "sbin")), none⟩,
    ⟨some (counted (wide "x")), none, none⟩,
    ⟨some (counted (wide "=d:")), some (counted (wide "b")), none⟩,
    ⟨some (counted (wide "a=b")), none, none⟩]

theorem environment_map_sample :
    ∃ statuses env' strs',
      setAll wineCaseMap (encode sampleStrings ++ [0, 0, 0]) sampleCalls = some (statuses, env') ∧
        EnvBlock strs' env' := by
  have hb : EnvBlock sampleStrings (encode sampleStrings ++ [0, 0, 0]) :=
    ⟨by decide, [0, 0], rfl⟩
  have hcalls : ∀ c ∈ sampleCalls, c.WellFormed := by
    unfold SetCall.WellFormed UnicodeString.WellFormed
    decide
  obtain ⟨statuses, env', strs', hall, -, hb', -⟩ := environment_map hb hcalls
  exact ⟨statuses, env', strs', hall, hb'⟩

/-- A block may hold two variables whose names have the same lower case. -/
def twoNames : List (List WChar) := [wide "A=1", wide "a=2"]

/-- Of two such variables only the first is deleted, and the name is still found. -/
theorem deleted_name_found :
    EnvBlock twoNames (encode twoNames ++ [0]) ∧ ∃ env',
      setAll wineCaseMap (encode twoNames ++ [0]) [⟨some (counted (wide "A")), none, none⟩] =
        some ([.success], env') ∧
      rtlQueryEnvironmentVariable_U wineCaseMap env' (counted (wide "A")) ⟨0, [0, 0]⟩ =
        some (.success, ⟨2, [0x32, 0]⟩) := by
  refine ⟨⟨by decide, [], rfl⟩, encode [wide "a=2"] ++ [0, 0x3d, 0x32, 0, 0], ?_, ?_⟩
  · decide
  · decide

end Calls

end Wine.Ntdll

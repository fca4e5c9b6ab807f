import Wine.Unicode

/-!
# The case tables

The tables of `casemap.c` hold the distance of each character to its image. A page of 256 characters
is kept as the ranges of characters that share one, and the characters that stay are left out. The
two tables do not agree: five characters have a lower case whose upper case is another one.
-/

namespace Wine

/-- The characters `first`, `first + step`, … up to `last` and the distance to their images. -/
structure CaseRange where
  first : ℕ
  last : ℕ
  step : ℕ
  delta : ℤ
  deriving DecidableEq, Repr

def CaseRange.contains (r : CaseRange) (ch : ℕ) : Bool :=
  r.first.ble ch && ch.ble r.last && (ch - r.first) % r.step == 0

def wineCasemapLower : ℕ → List CaseRange
  | 0x00 =>
    [⟨0x41, 0x5a, 1, 32⟩, ⟨0xc0, 0xd6, 1, 32⟩, ⟨0xd8, 0xde, 1, 32⟩]
  | 0x01 =>
    [⟨0x100, 0x12e, 2, 1⟩, ⟨0x130, 0x130, 1, -199⟩, ⟨0x132, 0x136, 2, 1⟩, ⟨0x139, 0x147, 2, 1⟩,
     ⟨0x14a, 0x176, 2, 1⟩, ⟨0x178, 0x178, 1, -121⟩, ⟨0x179, 0x17d, 2, 1⟩, ⟨0x181, 0x181, 1, 210⟩,
     ⟨0x182, 0x184, 2, 1⟩, ⟨0x186, 0x186, 1, 206⟩, ⟨0x187, 0x187, 1, 1⟩, ⟨0x189, 0x18a, 1, 205⟩,
     ⟨0x18b, 0x18b, 1, 1⟩, ⟨0x18e, 0x18e, 1, 79⟩, ⟨0x18f, 0x18f, 1, 202⟩, ⟨0x190, 0x190, 1, 203⟩,
     ⟨0x191, 0x191, 1, 1⟩, ⟨0x193, 0x193, 1, 205⟩, ⟨0x194, 0x194, 1, 207⟩, ⟨0x196, 0x196, 1, 211⟩,
     ⟨0x197, 0x197, 1, 209⟩, ⟨0x198, 0x198, 1, 1⟩, ⟨0x19c, 0x19c, 1, 211⟩, ⟨0x19d, 0x19d, 1, 213⟩,
     ⟨0x19f, 0x19f, 1, 214⟩, ⟨0x1a0, 0x1a4, 2, 1⟩, ⟨0x1a6, 0x1a6, 1, 218⟩, ⟨0x1a7, 0x1a7, 1, 1⟩,
     ⟨0x1a9, 0x1a9, 1, 218⟩, ⟨0x1ac, 0x1ac, 1, 1⟩, ⟨0x1ae, 0x1ae, 1, 218⟩, ⟨0x1af, 0x1af, 1, 1⟩,
     ⟨0x1b1, 0x1b2, 1, 217⟩, ⟨0x1b3, 0x1b5, 2, 1⟩, ⟨0x1b7, 0x1b7, 1, 219⟩, ⟨0x1b8, 0x1b8, 1, 1⟩,
     ⟨0x1bc, 0x1bc, 1, 1⟩, ⟨0x1c4, 0x1c4, 1, 2⟩, ⟨0x1c5, 0x1c5, 1, 1⟩, ⟨0x1c7, 0x1c7, 1, 2⟩,
     ⟨0x1c8, 0x1c8, 1, 1⟩, ⟨0x1ca, 0x1ca, 1, 2⟩, ⟨0x1cb, 0x1db, 2, 1⟩, ⟨0x1de, 0x1ee, 2, 1⟩,
     ⟨0x1f1, 0x1f1, 1, 2⟩, ⟨0x1f2, 0x1f4, 2, 1⟩, ⟨0x1f6, 0x1f6, 1, -97⟩, ⟨0x1f7, 0x1f7, 1, -56⟩,
     ⟨0x1f8, 0x1fe, 2, 1⟩]
  | 0x02 =>
    [⟨0x200, 0x21e, 2, 1⟩, ⟨0x220, 0x220, 1, -130⟩, ⟨0x222, 0x232, 2, 1⟩, ⟨0x23b, 0x23b, 1, 1⟩,
     ⟨0x23d, 0x23d, 1, -163⟩, ⟨0x241, 0x241, 1, 83⟩]
  | 0x03 =>
    [⟨0x386, 0x386, 1, 38⟩, ⟨0x388, 0x38a, 1, 37⟩, ⟨0x38c, 0x38c, 1, 64⟩, ⟨0x38e, 0x38f, 1, 63⟩,
     ⟨0x391, 0x3a1, 1, 32⟩, ⟨0x3a3, 0x3ab, 1, 32⟩, ⟨0x3d8, 0x3ee, 2, 1⟩, ⟨0x3f4, 0x3f4, 1, -60⟩,
     ⟨0x3f7, 0x3f7, 1, 1⟩, ⟨0x3f9, 0x3f9, 1, -7⟩, ⟨0x3fa, 0x3fa, 1, 1⟩]
  | 0x04 =>
    [⟨0x400, 0x40f, 1, 80⟩, ⟨0x410, 0x42f, 1, 32⟩, ⟨0x460, 0x480, 2, 1⟩, ⟨0x48a, 0x4be, 2, 1⟩,
     ⟨0x4c1, 0x4cd, 2, 1⟩, ⟨0x4d0, 0x4f8, 2, 1⟩]
  | 0x05 =>
    [⟨0x500, 0x50e, 2, 1⟩, ⟨0x531, 0x556, 1, 48⟩]
  | 0x10 =>
    [⟨0x10a0, 0x10c5, 1, 7264⟩]
  | 0x1e =>
    [⟨0x1e00, 0x1e94, 2, 1⟩, ⟨0x1ea0, 0x1ef8, 2, 1⟩]
  | 0x1f =>
    [⟨0x1f08, 0x1f0f, 1, -8⟩, ⟨0x1f18, 0x1f1d, 1, -8⟩, ⟨0x1f28, 0x1f2f, 1, -8⟩,
     ⟨0x1f38, 0x1f3f, 1, -8⟩, ⟨0x1f48, 0x1f4d, 1, -8⟩, ⟨0x1f59, 0x1f5f, 2, -8⟩,
     ⟨0x1f68, 0x1f6f, 1, -8⟩, ⟨0x1f88, 0x1f8f, 1, -8⟩, ⟨0x1f98, 0x1f9f, 1, -8⟩,
     ⟨0x1fa8, 0x1faf, 1, -8⟩, ⟨0x1fb8, 0x1fb9, 1, -8⟩, ⟨0x1fba, 0x1fbb, 1, -74⟩,
     ⟨0x1fbc, 0x1fbc, 1, -9⟩, ⟨0x1fc8, 0x1fcb, 1, -86⟩, ⟨0x1fcc, 0x1fcc, 1, -9⟩,
     ⟨0x1fd8, 0x1fd9, 1, -8⟩, ⟨0x1fda, 0x1fdb, 1, -100⟩, ⟨0x1fe8, 0x1fe9, 1, -8⟩,
     ⟨0x1fea, 0x1feb, 1, -112⟩, ⟨0x1fec, 0x1fec, 1, -7⟩, ⟨0x1ff8, 0x1ff9, 1, -128⟩,
     ⟨0x1ffa, 0x1ffb, 1, -126⟩, ⟨0x1ffc, 0x1ffc, 1, -9⟩]
  | 0x21 =>
    [⟨0x2126, 0x2126, 1, -7517⟩, ⟨0x212a, 0x212a, 1, -8383⟩, ⟨0x212b, 0x212b, 1, -8262⟩,
     ⟨0x2160, 0x216f, 1, 16⟩]
  | 0x24 =>
    [⟨0x24b6, 0x24cf, 1, 26⟩]
  | 0x2c =>
    [⟨0x2c00, 0x2c2e, 1, 48⟩, ⟨0x2c80, 0x2ce2, 2, 1⟩]
  | 0xff =>
    [⟨0xff21, 0xff3a, 1, 32⟩]
  | _ => []

def wineCasemapUpper : ℕ → List CaseRange
  | 0x00 =>
    [⟨0x61, 0x7a, 1, -32⟩, ⟨0xb5, 0xb5, 1, 743⟩, ⟨0xe0, 0xf6, 1, -32⟩, ⟨0xf8, 0xfe, 1, -32⟩,
     ⟨0xff, 0xff, 1, 121⟩]
  | 0x01 =>
    [⟨0x101, 0x12f, 2, -1⟩, ⟨0x131, 0x131, 1, -232⟩, ⟨0x133, 0x137, 2, -1⟩, ⟨0x13a, 0x148, 2, -1⟩,
     ⟨0x14b, 0x177, 2, -1⟩, ⟨0x17a, 0x17e, 2, -1⟩, ⟨0x17f, 0x17f, 1, -300⟩, ⟨0x183, 0x185, 2, -1⟩,
     ⟨0x188, 0x188, 1, -1⟩, ⟨0x18c, 0x18c, 1, -1⟩, ⟨0x192, 0x192, 1, -1⟩, ⟨0x195, 0x195, 1, 97⟩,
     ⟨0x199, 0x199, 1, -1⟩, ⟨0x19a, 0x19a, 1, 163⟩, ⟨0x19e, 0x19e, 1, 130⟩, ⟨0x1a1, 0x1a5, 2, -1⟩,
     ⟨0x1a8, 0x1a8, 1, -1⟩, ⟨0x1ad, 0x1ad, 1, -1⟩, ⟨0x1b0, 0x1b0, 1, -1⟩, ⟨0x1b4, 0x1b6, 2, -1⟩,
     ⟨0x1b9, 0x1b9, 1, -1⟩, ⟨0x1bd, 0x1bd, 1, -1⟩, ⟨0x1bf, 0x1bf, 1, 56⟩, ⟨0x1c5, 0x1c5, 1, -1⟩,
     ⟨0x1c6, 0x1c6, 1, -2⟩, ⟨0x1c8, 0x1c8, 1, -1⟩, ⟨0x1c9, 0x1c9, 1, -2⟩, ⟨0x1cb, 0x1cb, 1, -1⟩,
     ⟨0x1cc, 0x1cc, 1, -2⟩, ⟨0x1ce, 0x1dc, 2, -1⟩, ⟨0x1dd, 0x1dd, 1, -79⟩, ⟨0x1df, 0x1ef, 2, -1⟩,
     ⟨0x1f2, 0x1f2, 1, -1⟩, ⟨0x1f3, 0x1f3, 1, -2⟩, ⟨0x1f5, 0x1f5, 1, -1⟩, ⟨0x1f9, 0x1ff, 2, -1⟩]
  | 0x02 =>
    [⟨0x201, 0x21f, 2, -1⟩, ⟨0x223, 0x233, 2, -1⟩, ⟨0x23c, 0x23c, 1, -1⟩, ⟨0x253, 0x253, 1, -210⟩,
     ⟨0x254, 0x254, 1, -206⟩, ⟨0x256, 0x257, 1, -205⟩, ⟨0x259, 0x259, 1, -202⟩,
     ⟨0x25b, 0x25b, 1, -203⟩, ⟨0x260, 0x260, 1, -205⟩, ⟨0x263, 0x263, 1, -207⟩,
     ⟨0x268, 0x268, 1, -209⟩, ⟨0x269, 0x269, 1, -211⟩, ⟨0x26f, 0x26f, 1, -211⟩,
     ⟨0x272, 0x272, 1, -213⟩, ⟨0x275, 0x275, 1, -214⟩, ⟨0x280, 0x280, 1, -218⟩,
     ⟨0x283, 0x283, 1, -218⟩, ⟨0x288, 0x288, 1, -218⟩, ⟨0x28a, 0x28b, 1, -217⟩,
     ⟨0x292, 0x292, 1, -219⟩, ⟨0x294, 0x294, 1, -83⟩]
  | 0x03 =>
    [⟨0x345, 0x345, 1, 84⟩, ⟨0x3ac, 0x3ac, 1, -38⟩, ⟨0x3ad, 0x3af, 1, -37⟩, ⟨0x3b1, 0x3c1, 1, -32⟩,
     ⟨0x3c2, 0x3c2, 1, -31⟩, ⟨0x3c3, 0x3cb, 1, -32⟩, ⟨0x3cc, 0x3cc, 1, -64⟩,
     ⟨0x3cd, 0x3ce, 1, -63⟩, ⟨0x3d0, 0x3d0, 1, -62⟩, ⟨0x3d1, 0x3d1, 1, -57⟩,
     ⟨0x3d5, 0x3d5, 1, -47⟩, ⟨0x3d6, 0x3d6, 1, -54⟩, ⟨0x3d9, 0x3ef, 2, -1⟩, ⟨0x3f0, 0x3f0, 1, -86⟩,
     ⟨0x3f1, 0x3f1, 1, -80⟩, ⟨0x3f2, 0x3f2, 1, 7⟩, ⟨0x3f5, 0x3f5, 1, -96⟩, ⟨0x3f8, 0x3f8, 1, -1⟩,
     ⟨0x3fb, 0x3fb, 1, -1⟩]
  | 0x04 =>
    [⟨0x430, 0x44f, 1, -32⟩, ⟨0x450, 0x45f, 1, -80⟩, ⟨0x461, 0x481, 2, -1⟩, ⟨0x48b, 0x4bf, 2, -1⟩,
     ⟨0x4c2, 0x4ce, 2, -1⟩, ⟨0x4d1, 0x4f9, 2, -1⟩]
  | 0x05 =>
    [⟨0x501, 0x50f, 2, -1⟩, ⟨0x561, 0x586, 1, -48⟩]
  | 0x1e =>
    [⟨0x1e01, 0x1e95, 2, -1⟩, ⟨0x1e9b, 0x1e9b, 1, -59⟩, ⟨0x1ea1, 0x1ef9, 2, -1⟩]
  | 0x1f =>
    [⟨0x1f00, 0x1f07, 1, 8⟩, ⟨0x1f10, 0x1f15, 1, 8⟩, ⟨0x1f20, 0x1f27, 1, 8⟩,
     ⟨0x1f30, 0x1f37, 1, 8⟩, ⟨0x1f40, 0x1f45, 1, 8⟩, ⟨0x1f51, 0x1f57, 2, 8⟩,
     ⟨0x1f60, 0x1f67, 1, 8⟩, ⟨0x1f70, 0x1f71, 1, 74⟩, ⟨0x1f72, 0x1f75, 1, 86⟩,
     ⟨0x1f76, 0x1f77, 1, 100⟩, ⟨0x1f78, 0x1f79, 1, 128⟩, ⟨0x1f7a, 0x1f7b, 1, 112⟩,
     ⟨0x1f7c, 0x1f7d, 1, 126⟩, ⟨0x1f80, 0x1f87, 1, 8⟩, ⟨0x1f90, 0x1f97, 1, 8⟩,
     ⟨0x1fa0, 0x1fa7, 1, 8⟩, ⟨0x1fb0, 0x1fb1, 1, 8⟩, ⟨0x1fb3, 0x1fb3, 1, 9⟩,
     ⟨0x1fbe, 0x1fbe, 1, -7205⟩, ⟨0x1fc3, 0x1fc3, 1, 9⟩, ⟨0x1fd0, 0x1fd1, 1, 8⟩,
     ⟨0x1fe0, 0x1fe1, 1, 8⟩, ⟨0x1fe5, 0x1fe5, 1, 7⟩, ⟨0x1ff3, 0x1ff3, 1, 9⟩]
  | 0x21 =>
    [⟨0x2170, 0x217f, 1, -16⟩]
  | 0x24 =>
    [⟨0x24d0, 0x24e9, 1, -26⟩]
  | 0x2c =>
    [⟨0x2c30, 0x2c5e, 1, -48⟩, ⟨0x2c81, 0x2ce3, 2, -1⟩]
  | 0x2d =>
    [⟨0x2d00, 0x2d25, 1, -7264⟩]
  | 0xff =>
    [⟨0xff41, 0xff5a, 1, -32⟩]
  | _ => []

/-- `ch + table[table[ch >> 8] + (ch & 0xff)]`, in 16-bit arithmetic. -/
def caseImage (table : ℕ → List CaseRange) (ch : WChar) : WChar :=
  match (table (ch.toNat / 256)).find? (·.contains ch.toNat) with
  | some r => ch + BitVec.ofInt 16 r.delta
  | none => ch

def wineCaseMap : CaseMap where
  toupperW := caseImage wineCasemapUpper
  tolowerW := caseImage wineCasemapLower

/-- The characters with a lower case that does not go back to them. -/
def oneWay : List WChar := [0x130, 0x3f4, 0x2126, 0x212a, 0x212b]

theorem CaseRange.exists_of_contains {r : CaseRange} {ch : ℕ} (h : r.contains ch = true) :
    ∃ k ∈ List.range ((r.last - r.first) / r.step + 1), ch = r.first + k * r.step := by
  simp only [contains, Bool.and_eq_true, Nat.ble_eq, beq_iff_eq] at h
  obtain ⟨⟨hfirst, hlast⟩, hmod⟩ := h
  refine ⟨(ch - r.first) / r.step, ?_, ?_⟩
  · rw [List.mem_range, Nat.lt_succ_iff]
    exact Nat.div_le_div_right (Nat.sub_le_sub_right hlast r.first)
  · rw [Nat.div_mul_cancel (Nat.dvd_of_mod_eq_zero hmod)]
    omega

theorem upper_of_lower : ∀ page ∈ List.range 256, ∀ r ∈ wineCasemapLower page,
    ∀ k ∈ List.range ((r.last - r.first) / r.step + 1),
      BitVec.ofNat 16 (r.first + k * r.step) ∈ oneWay ∨
        caseImage wineCasemapUpper (BitVec.ofNat 16 (r.first + k * r.step) +
            BitVec.ofInt 16 r.delta) =
          caseImage wineCasemapUpper (BitVec.ofNat 16 (r.first + k * r.step)) := by
  decide +kernel

/-- Except for five characters the upper case can be read off the lower case. -/
theorem toupperW_tolowerW {ch : WChar} (h : ch ∉ oneWay) :
    wineCaseMap.toupperW (wineCaseMap.tolowerW ch) = wineCaseMap.toupperW ch := by
  have hlower : wineCaseMap.tolowerW ch = caseImage wineCasemapLower ch := rfl
  rw [hlower, caseImage]
  cases hr : (wineCasemapLower (ch.toNat / 256)).find? (·.contains ch.toNat) with
  | none => rfl
  | some r =>
    have hcontains : r.contains ch.toNat = true := by simpa using List.find?_some hr
    obtain ⟨k, hk, hch⟩ := CaseRange.exists_of_contains hcontains
    have hofNat : BitVec.ofNat 16 (r.first + k * r.step) = ch := by
      rw [← hch, BitVec.ofNat_toNat, BitVec.setWidth_eq]
    have hpage : ch.toNat / 256 ∈ List.range 256 := by
      have := ch.isLt
      rw [List.mem_range]
      omega
    have hcheck := upper_of_lower _ hpage r (List.mem_of_find?_eq_some hr) k hk
    rw [hofNat] at hcheck
    exact hcheck.resolve_left h

theorem lower_letters : ∀ page ∈ List.range 256, ∀ r ∈ wineCasemapLower page,
    ∀ k ∈ List.range ((r.last - r.first) / r.step + 1),
      0x41 ≤ (BitVec.ofNat 16 (r.first + k * r.step)).toNat ∧
        0x41 ≤ (BitVec.ofNat 16 (r.first + k * r.step) + BitVec.ofInt 16 r.delta).toNat := by
  decide +kernel

theorem upper_letters : ∀ page ∈ List.range 256, ∀ r ∈ wineCasemapUpper page,
    ∀ k ∈ List.range ((r.last - r.first) / r.step + 1),
      0x41 ≤ (BitVec.ofNat 16 (r.first + k * r.step)).toNat ∧
        0x41 ≤ (BitVec.ofNat 16 (r.first + k * r.step) + BitVec.ofInt 16 r.delta).toNat := by
  decide +kernel

/-- In a table of letters a character below them is the image of itself only. -/
theorem caseImage_eq_iff {table : ℕ → List CaseRange} {c d : WChar}
    (hletters : ∀ page ∈ List.range 256, ∀ r ∈ table page,
      ∀ k ∈ List.range ((r.last - r.first) / r.step + 1),
        0x41 ≤ (BitVec.ofNat 16 (r.first + k * r.step)).toNat ∧
          0x41 ≤ (BitVec.ofNat 16 (r.first + k * r.step) + BitVec.ofInt 16 r.delta).toNat)
    (hd : d.toNat < 0x41) : caseImage table c = d ↔ c = d := by
  rw [caseImage]
  cases hr : (table (c.toNat / 256)).find? (·.contains c.toNat) with
  | none => rfl
  | some r =>
    have hcontains : r.contains c.toNat = true := by simpa using List.find?_some hr
    obtain ⟨k, hk, hch⟩ := CaseRange.exists_of_contains hcontains
    have hofNat : BitVec.ofNat 16 (r.first + k * r.step) = c := by
      rw [← hch, BitVec.ofNat_toNat, BitVec.setWidth_eq]
    have hpage : c.toNat / 256 ∈ List.range 256 := by
      have := c.isLt
      rw [List.mem_range]
      omega
    have hrange := hletters _ hpage r (List.mem_of_find?_eq_some hr) k hk
    rw [hofNat] at hrange
    constructor
    · rintro rfl
      exact absurd hrange.2 (Nat.not_le_of_lt hd)
    · rintro rfl
      exact absurd hrange.1 (Nat.not_le_of_lt hd)

/-- The characters below the letters have no other case. -/
theorem tolowerW_eq_iff {c d : WChar} (hd : d.toNat < 0x41) :
    wineCaseMap.tolowerW c = d ↔ c = d :=
  caseImage_eq_iff lower_letters hd

theorem toupperW_eq_iff {c d : WChar} (hd : d.toNat < 0x41) :
    wineCaseMap.toupperW c = d ↔ c = d :=
  caseImage_eq_iff upper_letters hd

end Wine

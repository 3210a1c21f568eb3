import Harmony.Proofs.Text.CaseFold
import Harmony.Text.Blank

/-! # Variants of a notation

Two texts are variants of one notation if they differ in the case of letters other than `m` and `M`, in
the sign that they write for a sharp, and in their blanks: where one has blanks the other has some too,
of any kind and number.

* `plain`: the plain form of a text. Variants are the texts of one plain form.
* `Alike`: the same, read off the texts from the front (`alike_of_plain_eq`).
* `foldCase_eq_or_sharps`: characters of one plain form fold alike, sharps apart. -/

namespace Harmony.Text

/-! ### Plain forms -/

/-- Lower-cases a letter of the Latin alphabet, except `M`. -/
def lowerButM (c : Char) : Char := if c = 'M' then c else c.toLower

/-- Writes every sharp as `#`. -/
def plainSharp (c : Char) : Char := if c = '♯' then '#' else c

/-- The plain form of a character that is no blank. -/
def plainChar (c : Char) : Char := plainSharp (lowerButM c)

/-- One space for every maximal run of blanks. A run that has begun before the text has its space. -/
def squeezeFrom : Bool → List Char → List Char
  | _, [] => []
  | begun, c :: cs =>
    if isBlank c then
      if begun then squeezeFrom true cs else ' ' :: squeezeFrom true cs
    else c :: squeezeFrom false cs

/-- **The plain form of a text**: lower-case letters except `M`, `#` for every sharp, and one space for
every run of blanks. -/
def plain (text : List Char) : List Char :=
  squeezeFrom false ((text.map lowerButM).map plainSharp)

example : plain "CMaj7 \t ♯9 ".toList = "cMaj7 #9 ".toList := by decide

/-! ### Characters -/

/-- The capital letters of the Latin alphabet. -/
def capitals : List Char := (List.range' 65 26).map Char.ofNat

theorem toLower_eq_self_or_capital (c : Char) : c.toLower = c ∨ c ∈ capitals := by
  by_cases h : c.val ≥ 'A'.val ∧ c.val ≤ 'Z'.val
  · right
    have hlow : 65 ≤ c.toNat := h.1
    have hhigh : c.toNat ≤ 90 := h.2
    have hmem : c.toNat ∈ List.range' 65 26 := List.mem_range'_1.mpr ⟨hlow, by omega⟩
    exact List.mem_map.mpr ⟨c.toNat, hmem, Char.ofNat_toNat c⟩
  · left
    unfold Char.toLower
    rw [dif_neg h]

theorem plainChar_eq_or_capital (c : Char) : plainChar c = plainSharp c ∨ c ∈ capitals := by
  refine (toLower_eq_self_or_capital c).imp_left fun h => ?_
  unfold plainChar lowerButM
  rw [h, ite_self]

@[simp] theorem isBlank_plainChar (c : Char) : isBlank (plainChar c) = isBlank c := by
  have hcapitals : capitals.map (fun c => isBlank (plainChar c)) = capitals.map isBlank := by decide
  rcases plainChar_eq_or_capital c with h | h
  · rw [h]
    unfold plainSharp
    split
    · subst c
      decide
    · rfl
  · exact List.map_inj_left.mp hcapitals c h

/-- Only `m` and `M` have themselves as their plain forms. -/
theorem plainChar_eq_iff {d : Char} (hd : d = 'm' ∨ d = 'M') (c : Char) :
    plainChar c = d ↔ c = d := by
  have hcapitals : capitals.map (fun c => (plainChar c == 'm', plainChar c == 'M')) =
      capitals.map fun c => (c == 'm', c == 'M') := by decide
  rcases plainChar_eq_or_capital c with h | h
  · rw [h]
    unfold plainSharp
    split
    · subst c
      rcases hd with rfl | rfl <;> decide
    · rfl
  · obtain ⟨hm, hM⟩ := Prod.mk.inj (List.map_inj_left.mp hcapitals c h)
    rcases hd with rfl | rfl
    · rw [← beq_iff_eq, hm, beq_iff_eq]
    · rw [← beq_iff_eq, hM, beq_iff_eq]

/-- A sharp, in either form. -/
def IsSharp (c : Char) : Prop := c = '#' ∨ c = '♯'

theorem isSharp_of_plainChar {c : Char} (h : plainChar c = '#') : IsSharp c := by
  have hcapitals : '#' ∉ capitals.map plainChar := by decide
  rcases plainChar_eq_or_capital c with hc | hc
  · rw [hc] at h
    unfold plainSharp at h
    split at h
    · exact Or.inr ‹_›
    · exact Or.inl h
  · exact absurd (h ▸ List.mem_map_of_mem hc) hcapitals

theorem IsSharp.plainChar_eq {c : Char} (h : IsSharp c) : plainChar c = '#' := by
  rcases h with rfl | rfl <;> decide

theorem IsSharp.of_plainChar_eq {c d : Char} (h : IsSharp c) (hcd : plainChar c = plainChar d) :
    IsSharp d := isSharp_of_plainChar (hcd.symm.trans h.plainChar_eq)

theorem foldCase_plainChar {c : Char} (hc : c ≠ '♯') : foldCase (plainChar c) = foldCase c := by
  have hcapitals : capitals.map (fun c => foldCase (plainChar c)) = capitals.map foldCase := by decide
  rcases plainChar_eq_or_capital c with h | h
  · rw [h]
    unfold plainSharp
    rw [if_neg hc]
  · exact List.map_inj_left.mp hcapitals c h

theorem IsSharp.isBlank {c : Char} (h : IsSharp c) : isBlank c = false := by
  rcases h with rfl | rfl <;> decide

/-- **Characters of one plain form** fold alike, unless both are sharps. -/
theorem foldCase_eq_or_sharps {c d : Char} (h : plainChar c = plainChar d) :
    foldCase c = foldCase d ∨ IsSharp c ∧ IsSharp d := by
  by_cases hc : c = '♯'
  · have hsharp : IsSharp c := Or.inr hc
    exact Or.inr ⟨hsharp, hsharp.of_plainChar_eq h⟩
  · by_cases hd : d = '♯'
    · have hsharp : IsSharp d := Or.inr hd
      exact Or.inr ⟨hsharp.of_plainChar_eq h.symm, hsharp⟩
    · left
      rw [← foldCase_plainChar hc, h, foldCase_plainChar hd]

/-! ### Characters without case -/

/-- Ranges that hold all blanks, and no character that differs from another in case. -/
def blankRanges : List (Nat × Nat) :=
  [(0x09, 0x20), (0x85, 0xA0), (0x1680, 0x1680), (0x2000, 0x205F), (0x3000, 0x3000)]

theorem exists_blankRange {c : Char} (h : isBlank c = true) :
    ∃ range ∈ blankRanges, range.1 ≤ c.toNat ∧ c.toNat ≤ range.2 := by
  simp only [isBlank, Bool.or_eq_true, Bool.and_eq_true, beq_iff_eq, decide_eq_true_eq] at h
  simp only [blankRanges, List.mem_cons, List.not_mem_nil, or_false, exists_eq_or_imp, exists_eq_left]
  omega

set_option maxRecDepth 2000 in
theorem avoids_blankRanges :
    ∀ range ∈ blankRanges, ∀ run ∈ foldRuns, run.Avoids range.1 range.2 := by decide

theorem caseless_of_isBlank {c : Char} (h : isBlank c = true) : Caseless c := by
  obtain ⟨range, hrange, hlow, hhigh⟩ := exists_blankRange h
  exact caseless_of_avoids (avoids_blankRanges range hrange) hlow hhigh

set_option maxRecDepth 2000 in
theorem avoids_sharp : ∀ run ∈ foldRuns, run.Avoids '♯'.toNat '♯'.toNat := by decide

theorem IsSharp.caseless {c : Char} (h : IsSharp c) : Caseless c := by
  rcases h with rfl | rfl
  · decide
  · exact caseless_of_avoids avoids_sharp (Nat.le_refl _) (Nat.le_refl _)

/-! ### Texts of one plain form -/

/-- The texts are alike, character by character and blanks by blanks. -/
inductive Alike : List Char → List Char → Prop
  | nil : Alike [] []
  /-- Two characters of one plain form, both no blanks. -/
  | letter {c d : Char} {cs ds : List Char} (hc : isBlank c = false) (hd : isBlank d = false)
      (h : plainChar c = plainChar d) (rest : Alike cs ds) : Alike (c :: cs) (d :: ds)
  /-- Two runs of blanks. -/
  | blanks {c d : Char} {cs ds : List Char} (hc : isBlank c = true) (hd : isBlank d = true)
      (rest : Alike (trimStart cs) (trimStart ds)) : Alike (c :: cs) (d :: ds)

theorem Alike.eq_nil {ds : List Char} (h : Alike [] ds) : ds = [] := by
  cases h
  rfl

theorem squeezeFrom_true (cs : List Char) : squeezeFrom true cs = squeezeFrom false (trimStart cs) := by
  unfold trimStart
  induction cs with
  | nil => rfl
  | cons c cs ih => cases h : isBlank c <;> simp [squeezeFrom, h, ih]

theorem plain_eq_squeeze (text : List Char) : plain text = squeezeFrom false (text.map plainChar) := by
  unfold plain
  rw [List.map_map]
  rfl

theorem plain_cons {c : Char} (h : isBlank c = false) (cs : List Char) :
    plain (c :: cs) = plainChar c :: plain cs := by
  simp [plain_eq_squeeze, squeezeFrom, h]

theorem plain_cons_blank {c : Char} (h : isBlank c = true) (cs : List Char) :
    plain (c :: cs) = ' ' :: plain (trimStart cs) := by
  have htrim : trimStart (cs.map plainChar) = (trimStart cs).map plainChar := by
    unfold trimStart
    rw [List.dropWhile_map]
    congr 2
    exact funext isBlank_plainChar
  simp [plain_eq_squeeze, squeezeFrom, h, squeezeFrom_true, htrim]

theorem plain_cons_eq (c : Char) (cs : List Char) :
    plain (c :: cs) = plainChar c :: plain cs ∧ isBlank c = false ∨
      plain (c :: cs) = ' ' :: plain (trimStart cs) ∧ isBlank c = true := by
  cases h : isBlank c with
  | false => exact Or.inl ⟨plain_cons h cs, rfl⟩
  | true => exact Or.inr ⟨plain_cons_blank h cs, rfl⟩

/-- **Texts of one plain form are alike.** -/
theorem alike_of_plain_eq : ∀ {cs ds : List Char}, plain cs = plain ds → Alike cs ds
  | [], [], _ => .nil
  | [], d :: ds, h => by rcases plain_cons_eq d ds with ⟨hd, -⟩ | ⟨hd, -⟩ <;> cases h.trans hd
  | c :: cs, [], h => by rcases plain_cons_eq c cs with ⟨hc, -⟩ | ⟨hc, -⟩ <;> cases h.symm.trans hc
  | c :: cs, d :: ds, h => by
    -- a space and the plain form of a letter differ, so both texts begin with letters or with blanks
    have hspace : isBlank ' ' = true := rfl
    rcases plain_cons_eq c cs with ⟨hc, hblank⟩ | ⟨hc, hblank⟩ <;>
      rcases plain_cons_eq d ds with ⟨hd, hblank'⟩ | ⟨hd, hblank'⟩ <;>
      obtain ⟨hfirst, hrest⟩ := List.cons.inj (hc.symm.trans (h.trans hd))
    · exact .letter hblank hblank' hfirst (alike_of_plain_eq hrest)
    · rw [← isBlank_plainChar, hfirst, hspace] at hblank
      cases hblank
    · rw [← isBlank_plainChar, ← hfirst, hspace] at hblank'
      cases hblank'
    · exact .blanks hblank hblank' (alike_of_plain_eq hrest)
termination_by cs => cs.length
decreasing_by
  · exact Nat.lt_succ_self _
  · exact Nat.lt_succ_of_le (List.dropWhile_sublist _).length_le

end Harmony.Text

import Harmony.Proofs.Pattern.Occurrence
import Harmony.Proofs.Text.Notation

/-! # Patterns that tell no variants apart

Whether a pattern matches may depend on the case of a letter, on the sign of a sharp and on the number
of blanks. For a *steady* pattern it does not. That a pattern is steady is told from its form and from a
little knowledge of the match behind it. Blanks are the matter: the text may have more or fewer of them,
so a run of blanks has to be read as a whole.

* `CharClass.isSteady`: the class accepts either all characters of one plain form or none.
* `Pattern.Followed`: the pattern matches, and the rest of the match behind it.
* `Onward`, `Onward.Fits`: what is known of the rest of a match.
* `Pattern.isSteady`, `respects_followed`: a steady pattern, and what follows it, match alike texts. -/

namespace Harmony

open Text

/-! ### Character classes -/

/-- The range lies above the space and below all other blanks, and holds no sharp. -/
def CharRange.isPlain (range : CharRange) : Bool :=
  ' ' < range.first && range.last < '\u0085' && !range.holds '#'

theorem holds_of_isPlain {range : CharRange} (hrange : range.isPlain = true) {c : Char}
    (hc : isBlank c = true ∨ IsSharp c) : range.holds c = false := by
  unfold CharRange.isPlain at hrange
  simp only [Bool.and_eq_true, decide_eq_true_eq, Bool.not_eq_true'] at hrange
  obtain ⟨⟨hfirst, hlast⟩, hsharp⟩ := hrange
  have hlow : 0x20 < range.first.toNat := hfirst
  have hhigh : range.last.toNat < 0x85 := hlast
  -- every blank and the sign `♯` lie outside the limits, the sign `#` is told by itself
  have houtside : c.toNat ≤ 0x20 ∨ 0x85 ≤ c.toNat → range.holds c = false := by
    intro hout
    rw [← Bool.not_eq_true]
    intro hholds
    unfold CharRange.holds at hholds
    rw [Bool.and_eq_true, decide_eq_true_eq, decide_eq_true_eq] at hholds
    have hge : range.first.toNat ≤ c.toNat := hholds.1
    have hle : c.toNat ≤ range.last.toNat := hholds.2
    omega
  rcases hc with hblank | rfl | rfl
  · obtain ⟨limits, hlimits, hge, hle⟩ := exists_blankRange hblank
    simp only [blankRanges, List.mem_cons, List.not_mem_nil, or_false] at hlimits
    refine houtside ?_
    rcases hlimits with rfl | rfl | rfl | rfl | rfl <;> simp only at hge hle <;> omega
  · exact hsharp
  · exact houtside (Or.inr (by decide))

namespace CharClass

/-- Does the class accept all characters of one plain form or none, and all blanks or none? -/
def isSteady : CharClass → Casing → Bool
  | .char c, .folded => !isBlank c && c != '#' && c != '♯'
  | .char c, .exact => c == 'm' || c == 'M'
  | .escaped c, .folded => !isBlank c && c != '#' && c != '♯'
  | .escaped c, .exact => c == 'm' || c == 'M'
  | .blank, _ => true
  | .excluding ranges, .folded => ranges.all (·.isPlain)
  | .excluding _, .exact => false

/-- Is the class a sharp? -/
def isSharp : CharClass → Bool
  | .char c => c == '#' || c == '♯'
  | _ => false

/-- May the class accept a blank? -/
def takesBlanks : CharClass → Bool
  | .char c => isBlank c
  | .escaped c => isBlank c
  | .blank => true
  | .excluding _ => true

variable {cls : CharClass} {casing : Casing} {c d e : Char}

/-! A backslash changes nothing but the source. -/

theorem accepts_escaped (e : Char) (casing : Casing) (c : Char) :
    (escaped e).accepts casing c = (char e).accepts casing c := by cases casing <;> rfl

theorem isSteady_escaped (e : Char) (casing : Casing) :
    (escaped e).isSteady casing = (char e).isSteady casing := by cases casing <;> rfl

theorem accepts_char_of_caseless (hc : Caseless c) (e : Char) (casing : Casing) :
    (char e).accepts casing c = (e == c) := by
  cases casing with
  | exact => rfl
  | folded =>
    rw [Bool.eq_iff_iff, beq_iff_eq]
    exact ⟨fun h => hc.eq_of_foldCase (eq_of_beq h), fun h => beq_iff_eq.mpr (h ▸ rfl)⟩

theorem accepts_excluding {ranges : List CharRange} (hranges : ranges.all (·.isPlain) = true)
    (hc : isBlank c = true ∨ IsSharp c) : (excluding ranges).accepts .folded c = true := by
  have hcase : variants c = [c] := by
    rcases hc with hc | hc
    · exact caseless_of_isBlank hc
    · exact hc.caseless
  have hnone : ranges.any (·.holds c) = false := List.any_eq_false.mpr fun range hrange => by
    rw [holds_of_isPlain (List.all_eq_true.mp hranges range hrange) hc]
    exact Bool.false_ne_true
  simp [accepts, hcase, hnone]

theorem accepts_folded_congr (cls : CharClass) (h : foldCase c = foldCase d)
    (hblank : isBlank c = isBlank d) : cls.accepts .folded c = cls.accepts .folded d := by
  cases cls with
  | char e => simp [accepts, sameLetter, h]
  | escaped e => simp [accepts, sameLetter, h]
  | blank => exact hblank
  | excluding ranges => simp [accepts, variants, h]

theorem accepts_char_eq (hcls : (char e).isSteady casing = true) (h : plainChar c = plainChar d) :
    (char e).accepts casing c = (char e).accepts casing d := by
  have hblank : isBlank c = isBlank d := by rw [← isBlank_plainChar, h, isBlank_plainChar]
  cases casing with
  | folded =>
    rcases foldCase_eq_or_sharps h with hfold | ⟨hc, hd⟩
    · exact accepts_folded_congr _ hfold hblank
    · simp only [isSteady, Bool.and_eq_true, bne_iff_ne] at hcls
      have hother : ∀ {x : Char}, IsSharp x → (char e).accepts .folded x = false := by
        intro x hx
        rw [accepts_char_of_caseless hx.caseless]
        rcases hx with rfl | rfl
        · exact beq_false_of_ne hcls.1.2
        · exact beq_false_of_ne hcls.2
      rw [hother hc, hother hd]
  | exact =>
    simp only [isSteady, Bool.or_eq_true, beq_iff_eq] at hcls
    show (e == c) = (e == d)
    rw [Bool.eq_iff_iff, beq_iff_eq, beq_iff_eq, eq_comm, ← plainChar_eq_iff hcls, h,
      plainChar_eq_iff hcls, eq_comm]

/-- **A steady class accepts characters of one plain form alike.** -/
theorem accepts_eq_of_plainChar_eq (hcls : cls.isSteady casing = true)
    (h : plainChar c = plainChar d) : cls.accepts casing c = cls.accepts casing d := by
  have hblank : isBlank c = isBlank d := by rw [← isBlank_plainChar, h, isBlank_plainChar]
  cases cls with
  | char e => exact accepts_char_eq hcls h
  | escaped e =>
    rw [isSteady_escaped] at hcls
    rw [accepts_escaped, accepts_escaped, accepts_char_eq hcls h]
  | blank => exact hblank
  | excluding ranges =>
    cases casing with
    | exact => cases hcls
    | folded =>
      rcases foldCase_eq_or_sharps h with hfold | ⟨hc, hd⟩
      · exact accepts_folded_congr _ hfold hblank
      · rw [accepts_excluding hcls (Or.inr hc), accepts_excluding hcls (Or.inr hd)]

theorem isBlank_of_isSteady (hcls : (char e).isSteady casing = true) : isBlank e = false := by
  cases casing with
  | folded =>
    simp only [isSteady, Bool.and_eq_true, Bool.not_eq_true'] at hcls
    exact hcls.1.1
  | exact =>
    simp only [isSteady, Bool.or_eq_true, beq_iff_eq] at hcls
    rcases hcls with rfl | rfl <;> decide

theorem takesBlanks_of_accepts (hc : isBlank c = true) (h : cls.accepts casing c = true) :
    cls.takesBlanks = true := by
  cases cls with
  | char e =>
    rw [accepts_char_of_caseless (caseless_of_isBlank hc)] at h
    exact eq_of_beq h ▸ hc
  | escaped e =>
    rw [accepts_escaped, accepts_char_of_caseless (caseless_of_isBlank hc)] at h
    exact eq_of_beq h ▸ hc
  | blank | excluding ranges => rfl

theorem accepts_blank_eq_true (hsteady : cls.isSteady casing = true) (hcls : cls.takesBlanks = true)
    (hc : isBlank c = true) : cls.accepts casing c = true := by
  cases cls with
  | char e => exact absurd hcls (by simp [takesBlanks, isBlank_of_isSteady hsteady])
  | escaped e =>
    rw [isSteady_escaped] at hsteady
    exact absurd hcls (by simp [takesBlanks, isBlank_of_isSteady hsteady])
  | blank => exact hc
  | excluding ranges =>
    cases casing with
    | exact => cases hsteady
    | folded => exact accepts_excluding hsteady (Or.inl hc)

theorem isSharp_of_accepts (hcls : cls.isSharp = true) (h : cls.accepts casing c = true) :
    IsSharp c := by
  cases cls with
  | char e =>
    have he : IsSharp e := by simpa [CharClass.isSharp, IsSharp] using hcls
    cases casing with
    | exact => exact eq_of_beq h ▸ he
    | folded =>
      have hfold : foldCase e = foldCase c := eq_of_beq h
      exact he.caseless.eq_of_foldCase hfold.symm ▸ he
  | escaped e | blank | excluding ranges => cases hcls

theorem accepts_self (c : Char) (casing : Casing) : (char c).accepts casing c = true := by
  cases casing <;> exact beq_self_eq_true _

end CharClass

/-! ### Alike places -/

/-- Both places are the start or neither is, and the texts behind them are alike. -/
structure Cursor.Alike (cursor other : Cursor) : Prop where
  atStart : cursor.atStart = other.atStart
  rest : Text.Alike cursor.rest other.rest

/-- What holds at a place holds at all alike places. -/
def Respects (K : Cursor → Prop) : Prop :=
  ∀ ⦃cursor other : Cursor⦄, cursor.Alike other → K cursor → K other

theorem Respects.carry {K : Cursor → Prop} (hK : Respects K) {atStart : Bool} {cs ds : List Char}
    (halike : Text.Alike cs ds) (h : K ⟨atStart, cs⟩) : K ⟨atStart, ds⟩ :=
  @hK ⟨atStart, cs⟩ ⟨atStart, ds⟩ ⟨rfl, halike⟩ h

/-- Nothing holds in front of a blank. -/
def Refuses (K : Cursor → Prop) : Prop :=
  ∀ atStart b cs, isBlank b = true → ¬ K ⟨atStart, b :: cs⟩

/-- Away from the start, one blank more makes no difference. -/
def Absorbs (K : Cursor → Prop) : Prop :=
  ∀ b cs, isBlank b = true → (K ⟨false, b :: cs⟩ ↔ K ⟨false, cs⟩)

theorem Absorbs.trimStart_iff {K : Cursor → Prop} (hK : Absorbs K) (cs : List Char) :
    K ⟨false, trimStart cs⟩ ↔ K ⟨false, cs⟩ := by
  unfold trimStart
  induction cs with
  | nil => rfl
  | cons c cs ih =>
    rw [List.dropWhile_cons]
    split
    · rw [ih, hK c cs ‹_›]
    · rfl

/-- What is known of the rest of a match. -/
structure Onward where
  /-- It does not begin in front of a blank. -/
  refuses : Bool
  /-- One blank more in front of it makes no difference. -/
  absorbs : Bool
deriving Repr, DecidableEq

/-- The knowledge is right. -/
structure Onward.Fits (k : Onward) (K : Cursor → Prop) : Prop where
  refuses : k.refuses = true → Refuses K
  absorbs : k.absorbs = true → Absorbs K

/-- What is known of either of two. -/
def Onward.either (k k' : Onward) : Onward := ⟨k.refuses && k'.refuses, k.absorbs && k'.absorbs⟩

theorem Onward.Fits.either {k k' : Onward} {K K' : Cursor → Prop} (h : k.Fits K) (h' : k'.Fits K') :
    (k.either k').Fits fun cursor => K cursor ∨ K' cursor where
  refuses hk atStart b cs hb := by
    obtain ⟨hk, hk'⟩ := Bool.and_eq_true_iff.mp hk
    exact not_or.mpr ⟨h.refuses hk atStart b cs hb, h'.refuses hk' atStart b cs hb⟩
  absorbs hk b cs hb := by
    obtain ⟨hk, hk'⟩ := Bool.and_eq_true_iff.mp hk
    exact or_congr (h.absorbs hk b cs hb) (h'.absorbs hk' b cs hb)

/-- How letters are matched in a group. -/
def GroupKind.casing : GroupKind → Casing → Casing
  | .exact, _ => .exact
  | _, casing => casing

namespace Pattern

variable {p q : Pattern} {casing : Casing} {cursor other : Cursor} {K : Cursor → Prop} {k : Onward}

/-! ### What follows a pattern -/

/-- The pattern matches at the place, and the rest of the match behind it. -/
def Followed (p : Pattern) (casing : Casing) (K : Cursor → Prop) (cursor : Cursor) : Prop :=
  ∃ next ∈ p.ends casing cursor, K next

theorem followed_empty : empty.Followed casing K = K := by
  funext cursor
  simp [Followed, ends]

theorem followed_one_cons {cls : CharClass} {atStart : Bool} {c : Char} {cs : List Char} :
    (one cls).Followed casing K ⟨atStart, c :: cs⟩ ↔
      cls.accepts casing c = true ∧ K ⟨false, cs⟩ := by
  simp [Followed, ends, and_assoc]

theorem followed_many_cons {cls : CharClass} {atStart : Bool} {c : Char} {cs : List Char} :
    (many cls).Followed casing K ⟨atStart, c :: cs⟩ ↔ K ⟨atStart, c :: cs⟩ ∨
      cls.accepts casing c = true ∧ (many cls).Followed casing K ⟨false, cs⟩ := by
  simp only [Followed, ends, runEnds, List.mem_cons, exists_eq_or_imp]
  split <;> simp_all

theorem followed_opt :
    (opt p).Followed casing K = fun cursor => K cursor ∨ p.Followed casing K cursor := by
  funext cursor
  simp [Followed, ends]

theorem followed_seq : (seq p q).Followed casing K = p.Followed casing (q.Followed casing K) := by
  funext cursor
  simp only [Followed, mem_ends_seq]
  grind

theorem followed_alt : (alt p q).Followed casing K =
    fun cursor => p.Followed casing K cursor ∨ q.Followed casing K cursor := by
  funext cursor
  simp [Followed, ends, or_and_right, exists_or]

theorem followed_group {kind : GroupKind} :
    (group kind p).Followed casing K = p.Followed (kind.casing casing) K := by
  cases kind <;> rfl

theorem followed_start :
    start.Followed casing K = fun cursor => cursor.atStart = true ∧ K cursor := by
  funext cursor
  simp [Followed, ends, and_assoc]

theorem followed_stop : stop.Followed casing K = fun cursor => cursor.rest = [] ∧ K cursor := by
  funext cursor
  simp [Followed, ends, and_assoc]

/-! ### What is known of a pattern and what follows it -/

/-- What is known of the pattern together with the rest of the match, of which `k` is known. -/
def front : Pattern → Onward → Onward
  | .empty, k => k
  | .one cls, _ => ⟨!cls.takesBlanks, false⟩
  | .many .blank, k => ⟨false, k.refuses⟩
  | .many _, _ => ⟨false, false⟩
  | .opt p, k => k.either (p.front k)
  | .seq p q, k => p.front (q.front k)
  | .alt p q, k => (p.front k).either (q.front k)
  | .group _ p, k => p.front k
  | .start, k => ⟨k.refuses, true⟩
  | .stop, _ => ⟨true, false⟩

theorem absorbs_followed_blanks (hK : Refuses K) : Absorbs (blanks.Followed casing K) := by
  intro b cs hb
  unfold blanks
  rw [followed_many_cons]
  exact ⟨fun h => (h.resolve_left (hK false b cs hb)).2, fun h => Or.inr ⟨hb, h⟩⟩

theorem fits_front (hk : k.Fits K) : (p.front k).Fits (p.Followed casing K) := by
  induction p generalizing casing k K with
  | empty => rwa [followed_empty]
  | one cls =>
    refine ⟨fun hcls atStart b cs hb h => ?_, nofun⟩
    have htakes := CharClass.takesBlanks_of_accepts hb (followed_one_cons.mp h).1
    simp [front, htakes] at hcls
  | many cls =>
    cases cls with
    | blank => exact ⟨nofun, fun h => absorbs_followed_blanks (hk.refuses h)⟩
    | char c | escaped c | excluding ranges => exact ⟨nofun, nofun⟩
  | opt p ih =>
    rw [followed_opt]
    exact hk.either (ih hk)
  | seq p q ihp ihq =>
    rw [followed_seq]
    exact ihp (ihq hk)
  | alt p q ihp ihq =>
    rw [followed_alt]
    exact (ihp hk).either (ihq hk)
  | group kind p ih =>
    rw [followed_group]
    exact ih hk
  | start =>
    rw [followed_start]
    refine ⟨fun h atStart b cs hb hc => hk.refuses h atStart b cs hb hc.2, fun _ b cs _ => ?_⟩
    simp
  | stop =>
    rw [followed_stop]
    refine ⟨fun _ atStart b cs _ => ?_, nofun⟩
    simp

/-! ### Steady patterns -/

/-- The patterns that a choice chooses from. -/
def branches : Pattern → List Pattern
  | .alt p q => p.branches ++ q.branches
  | p => [p]

/-- Is the pattern a choice with both signs of a sharp? -/
def hasSharps (p : Pattern) : Bool :=
  p.branches.contains (.one (.char '#')) && p.branches.contains (.one (.char '♯'))

/-- A sharp, in either form. -/
def sharp : Pattern := .alt (.one (.char '#')) (.one (.char '♯'))

/-- **May a match be carried to an alike text?** Of the rest of the match `k` is known. A pattern that
stands `beside` both sharps may be one of them. -/
def isSteady : Pattern → Casing → Bool → Onward → Bool
  | .empty, _, _, _ => true
  | .one cls, casing, beside, k =>
    (cls.isSteady casing || beside && cls.isSharp) && (!cls.takesBlanks || k.absorbs)
  | .many cls, _, _, k => cls == .blank && k.refuses
  | .opt p, casing, _, k => p.isSteady casing false k
  | .seq p q, casing, _, k => p.isSteady casing false (q.front k) && q.isSteady casing false k
  | .alt p q, casing, beside, k =>
    let beside := beside || (alt p q).hasSharps
    p.isSteady casing beside k && q.isSteady casing beside k
  | .group kind p, casing, _, k => p.isSteady (kind.casing casing) false k
  | .start, _, _, _ => true
  | .stop, _, _, _ => true

theorem followed_of_mem_branches (hq : q ∈ p.branches) (h : q.Followed casing K cursor) :
    p.Followed casing K cursor := by
  induction p with
  | alt p p' ih ih' =>
    rw [followed_alt]
    exact (List.mem_append.mp hq).imp ih ih'
  | _ =>
    obtain rfl := List.mem_singleton.mp hq
    exact h

theorem followed_of_hasSharps (hp : p.hasSharps = true) (h : sharp.Followed casing K cursor) :
    p.Followed casing K cursor := by
  unfold hasSharps at hp
  rw [Bool.and_eq_true, List.contains_iff_mem, List.contains_iff_mem] at hp
  unfold sharp at h
  rw [followed_alt] at h
  exact h.elim (followed_of_mem_branches hp.1) (followed_of_mem_branches hp.2)

theorem followed_sharp {atStart : Bool} {c : Char} {cs : List Char} (hc : IsSharp c)
    (hK : K ⟨false, cs⟩) : sharp.Followed casing K ⟨atStart, c :: cs⟩ := by
  unfold sharp
  rw [followed_alt]
  rcases hc with rfl | rfl
  · exact Or.inl (followed_one_cons.mpr ⟨CharClass.accepts_self _ _, hK⟩)
  · exact Or.inr (followed_one_cons.mpr ⟨CharClass.accepts_self _ _, hK⟩)

theorem respects_followed_blanks (hK : Respects K) (hrefuses : Refuses K) :
    Respects (blanks.Followed casing K) := by
  rintro ⟨atStart, cs⟩ ⟨_, ds⟩ ⟨rfl, halike⟩ h
  have habsorbs : Absorbs (blanks.Followed casing K) := absorbs_followed_blanks hrefuses
  dsimp only at halike
  induction halike generalizing atStart with
  | nil => exact h
  | @letter c d cs ds hc hd hcd rest =>
    unfold blanks at h ⊢
    rw [followed_many_cons] at h ⊢
    rcases h with h | ⟨hblank, -⟩
    · exact Or.inl (hK.carry (.letter hc hd hcd rest) h)
    · exact absurd (hc.symm.trans hblank) Bool.false_ne_true
  | @blanks c d cs ds hc hd rest ih =>
    unfold blanks at h ⊢
    rw [followed_many_cons] at h ⊢
    have hbehind := (h.resolve_left (hrefuses atStart c cs hc)).2
    have hfirst := (habsorbs.trimStart_iff cs).mpr hbehind
    exact Or.inr ⟨hd, (habsorbs.trimStart_iff ds).mp (ih false hfirst)⟩

/-- A character is carried to one of its plain form, and a blank to the first blank of the other run. -/
theorem followed_one_of_alike {cls : CharClass} {beside : Bool}
    (hp : (one cls).isSteady casing beside k = true) (hk : k.Fits K) (hK : Respects K)
    (halike : cursor.Alike other) (h : (one cls).Followed casing K cursor) :
    (one cls).Followed casing K other ∨ beside = true ∧ sharp.Followed casing K other := by
  obtain ⟨atStart, cs⟩ := cursor
  obtain ⟨_, ds⟩ := other
  obtain ⟨rfl, halike⟩ := halike
  obtain ⟨hcls, hblanks⟩ := Bool.and_eq_true_iff.mp hp
  rw [Bool.or_eq_true, Bool.and_eq_true] at hcls
  cases halike with
  | nil => exact absurd h (by simp [Followed, ends])
  | @letter c d cs ds hc hd hcd rest =>
    rw [followed_one_cons] at h ⊢
    obtain ⟨haccepts, h⟩ := h
    have hbehind := hK.carry rest h
    rcases hcls with hsteady | ⟨hbeside, hsharp⟩
    · exact Or.inl ⟨CharClass.accepts_eq_of_plainChar_eq hsteady hcd ▸ haccepts, hbehind⟩
    · have hother := (CharClass.isSharp_of_accepts hsharp haccepts).of_plainChar_eq hcd
      exact Or.inr ⟨hbeside, followed_sharp hother hbehind⟩
  | @blanks c d cs ds hc hd rest =>
    rw [followed_one_cons] at h ⊢
    obtain ⟨haccepts, h⟩ := h
    -- the two runs may differ in length, but the rest of the match absorbs what is left of them
    have htakes := CharClass.takesBlanks_of_accepts hc haccepts
    have habsorbs : Absorbs K := hk.absorbs (by simpa [htakes] using hblanks)
    have hbehind := hK.carry rest ((habsorbs.trimStart_iff cs).mpr h)
    rw [habsorbs.trimStart_iff] at hbehind
    rcases hcls with hsteady | ⟨-, hsharp⟩
    · exact Or.inl ⟨CharClass.accepts_blank_eq_true hsteady htakes hd, hbehind⟩
    · have hletter := (CharClass.isSharp_of_accepts hsharp haccepts).isBlank
      exact absurd (hletter.symm.trans hc) Bool.false_ne_true

/-- **A match of a steady pattern may be carried to an alike place**, unless the text goes on with
another sharp there. -/
theorem followed_of_alike {beside : Bool} (hp : p.isSteady casing beside k = true) (hk : k.Fits K)
    (hK : Respects K) (halike : cursor.Alike other) (h : p.Followed casing K cursor) :
    p.Followed casing K other ∨ beside = true ∧ sharp.Followed casing K other := by
  -- the induction is on the pattern for every rest of the match: a sequence hands a longer one on
  induction p generalizing casing beside k K cursor other with
  | empty =>
    rw [followed_empty] at h ⊢
    exact Or.inl (hK halike h)
  | one cls => exact followed_one_of_alike hp hk hK halike h
  | many cls =>
    obtain ⟨hcls, hrefuses⟩ := Bool.and_eq_true_iff.mp hp
    obtain rfl := eq_of_beq hcls
    exact Or.inl (respects_followed_blanks hK (hk.refuses hrefuses) halike h)
  | opt p ih =>
    rw [followed_opt] at h ⊢
    rcases h with h | h
    · exact Or.inl (Or.inl (hK halike h))
    · refine Or.inl (Or.inr ?_)
      simpa using ih hp hk hK halike h
  | seq p q ihp ihq =>
    rw [followed_seq] at h ⊢
    obtain ⟨hp, hq⟩ := Bool.and_eq_true_iff.mp hp
    -- what follows `p` is `q` and what follows `q`
    have hrest : Respects (q.Followed casing K) := fun cursor other halike h => by
      simpa using ihq hq hk hK halike h
    left
    simpa using ihp hp (fits_front hk) hrest halike h
  | alt p q ihp ihq =>
    obtain ⟨hp, hq⟩ := Bool.and_eq_true_iff.mp hp
    have hchoice : p.Followed casing K other ∨ q.Followed casing K other ∨
        (beside || (alt p q).hasSharps) = true ∧ sharp.Followed casing K other := by
      rw [followed_alt] at h
      rcases h with h | h
      · exact (ihp hp hk hK halike h).imp_right Or.inr
      · exact Or.inr (ihq hq hk hK halike h)
    rw [Bool.or_eq_true] at hchoice
    rcases hchoice with h | h | ⟨hbeside | hsharps, h⟩
    · rw [followed_alt]
      exact Or.inl (Or.inl h)
    · rw [followed_alt]
      exact Or.inl (Or.inr h)
    · exact Or.inr ⟨hbeside, h⟩
    · exact Or.inl (followed_of_hasSharps hsharps h)
  | group kind p ih =>
    rw [followed_group] at h ⊢
    left
    simpa using ih hp hk hK halike h
  | start =>
    rw [followed_start] at h ⊢
    exact Or.inl ⟨halike.atStart ▸ h.1, hK halike h.2⟩
  | stop =>
    rw [followed_stop] at h ⊢
    obtain ⟨hnil, h⟩ := h
    have hrest := halike.rest
    rw [hnil] at hrest
    exact Or.inl ⟨hrest.eq_nil, hK halike h⟩

/-- **A steady pattern and what follows it match alike texts.** -/
theorem respects_followed (hp : p.isSteady casing false k = true) (hk : k.Fits K)
    (hK : Respects K) : Respects (p.Followed casing K) := fun cursor other halike h => by
  simpa using followed_of_alike hp hk hK halike h

end Pattern

end Harmony

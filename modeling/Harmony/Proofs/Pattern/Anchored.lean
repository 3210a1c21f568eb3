import Harmony.Proofs.Pattern.LookBack
import Harmony.Proofs.Text.Letters

/-! # Patterns by their first part

A pattern that begins with an anchor is tried at the start of the text only, and one that begins with a
choice wherever one of the chosen parts is.

* `Text.BeginsWith`, `matchesAt_word_iff`: a word at the start of a text, in any case.
* `occursIn_start_seq_iff`, `occursIn_oneOf_seq_iff`: where such a pattern occurs.
* `followed_nonLetter_cons`, `followed_exactly_cons`: what the first part reads. -/

namespace Harmony

/-! ### Words at the start of a text -/

/-- The text begins with the word, in any case. -/
def Text.BeginsWith (word : String) (text : List Char) : Prop :=
  word.toList.map Text.foldCase <+: text.map Text.foldCase

instance (word : String) : DecidablePred (Text.BeginsWith word) := fun text => by
  unfold Text.BeginsWith
  infer_instance

namespace Pattern

variable {p q r : Pattern} {K : Cursor → Prop} {cursor : Cursor} {text : List Char}

theorem matchesAt_iff_followed :
    p.matchesAt cursor = true ↔ p.Followed .folded (fun _ => True) cursor := by
  rw [matchesAt_iff]
  simp [Followed]

theorem occursIn_start_seq_iff : (seq start p).occursIn text = true ↔
    p.Followed .folded (fun _ => True) ⟨true, text⟩ := by
  rw [occursIn_seq_iff, ← matchesAt_iff_followed]
  constructor
  · rintro ⟨before, behind, rfl, hends, h⟩
    obtain rfl := endsAt_start.mp hends
    exact h
  · exact fun h => ⟨[], text, rfl, endsAt_start.mpr rfl, h⟩

theorem occursIn_oneOf_seq_iff : (seq (oneOf [p, q]) r).occursIn text = true ↔
    (seq p r).occursIn text = true ∨ (seq q r).occursIn text = true := by
  simp only [occursIn_seq_iff, endsAt_oneOf, or_and_right, and_or_left, exists_or]

theorem matchesAt_word_iff {word : String} {atStart : Bool} :
    (Pattern.word word).matchesAt ⟨atStart, text⟩ = true ↔ Text.BeginsWith word text := by
  rw [matchesAt_iff]
  constructor
  · rintro ⟨next, hnext⟩
    obtain ⟨read, hread, hspans⟩ := mem_ends_word.mp hnext
    have htext : text = read ++ next.rest := hspans.rest
    exact ⟨next.rest.map Text.foldCase, by rw [htext, List.map_append, hread]⟩
  · rintro ⟨folded, hfolded⟩
    obtain ⟨read, rest, rfl, hread, -⟩ := List.map_eq_append_iff.mp hfolded.symm
    exact ⟨⟨atStart && read.isEmpty, rest⟩, mem_ends_word.mpr ⟨read, hread, rfl, rfl⟩⟩

theorem beginsWith_of_followed_word {word : String} (h : (Pattern.word word).Followed .folded K cursor) :
    Text.BeginsWith word cursor.rest := by
  obtain ⟨next, hnext, -⟩ := h
  exact matchesAt_word_iff.mp (matchesAt_iff.mpr ⟨next, hnext⟩)

theorem accepts_nonLetter (c : Char) :
    (CharClass.excluding [⟨'a', 'z'⟩]).accepts .folded c = !Text.isLatin c := by
  unfold CharClass.accepts Text.isLatin
  simp [CharRange.holds]

theorem followed_nonLetter_cons {atStart : Bool} {c : Char} {cs : List Char} :
    nonLetter.Followed .folded K ⟨atStart, c :: cs⟩ ↔ Text.isLatin c = false ∧ K ⟨false, cs⟩ := by
  unfold nonLetter
  rw [followed_one_cons, accepts_nonLetter, Bool.not_eq_true']

theorem followed_exactly_cons {d : Char} {atStart : Bool} {c : Char} {cs : List Char} :
    (exactly d).Followed .folded K ⟨atStart, c :: cs⟩ ↔ c = d ∧ K ⟨false, cs⟩ := by
  unfold exactly
  rw [followed_group]
  exact followed_one_cons.trans (and_congr_left' (beq_iff_eq.trans eq_comm))

end Pattern

end Harmony

import Harmony.Proofs.Decimal
import Harmony.Rule

/-! # Effects in words

The listing of a rule shows its effects as texts, and nothing is lost by it: an effect is told from its
text. The four kinds of effects begin with words of their own. Behind the word every number ends where a
character follows that stands in no number, so the numbers are found again one by one, with their signs.

* `intercalate_repr_injective`: a list of numbers is told from its text.
* `Effect.describe_injective`: an effect is told from its text.
* `effects_eq_of_info`: rules with equal listings act alike. -/

namespace Harmony

open Decimal

/-! ### Lists of numbers -/

section Lists
variable {n : Int} {ns ms : List Int}

/-- The numbers behind the first one of a list, each with the comma in front of it. -/
def furtherItems (ns : List Int) : List Char := ns.flatMap fun n => ',' :: ' ' :: n.repr.toList

theorem furtherItems_cons (n : Int) (ns : List Int) :
    furtherItems (n :: ns) = ',' :: ' ' :: (n.repr.toList ++ furtherItems ns) := rfl

theorem endsRun_furtherItems (ns : List Int) : Text.EndsRun startsInteger (furtherItems ns) := by
  cases ns with
  | nil => exact Text.endsRun_nil _
  | cons n ns => exact Text.endsRun_cons rfl

theorem furtherItems_injective (h : furtherItems ns = furtherItems ms) : ns = ms := by
  induction ns generalizing ms with
  | nil =>
    cases ms with
    | nil => rfl
    | cons => cases h
  | cons n ns ih =>
    cases ms with
    | nil => cases h
    | cons m ms =>
      have hitems : n.repr.toList ++ furtherItems ns = m.repr.toList ++ furtherItems ms :=
        (List.cons.inj (List.cons.inj h).2).2
      obtain ⟨hfirst, hrest⟩ := eq_of_append_eq (readInt?_repr n) (readInt?_repr m)
        (endsRun_furtherItems ns) (endsRun_furtherItems ms) hitems
      rw [hfirst, ih hrest]

theorem toList_intercalate_repr (n : Int) (ns : List Int) :
    (", ".intercalate ((n :: ns).map Int.repr)).toList = n.repr.toList ++ furtherItems ns := by
  induction ns generalizing n with
  | nil => simp [furtherItems]
  | cons m ns ih =>
    have hrest := ih m
    rw [List.map_cons] at hrest
    rw [List.map_cons, List.map_cons, String.intercalate_cons_cons, String.toList_append,
      String.toList_append, hrest, furtherItems_cons, List.append_assoc]
    rfl

theorem intercalate_repr_cons_ne_empty (n : Int) (ns : List Int) :
    ", ".intercalate ((n :: ns).map Int.repr) ≠ "" := by
  intro h
  have hchars := toList_intercalate_repr n ns
  rw [h] at hchars
  have hread := readInt?_repr n
  rw [(List.append_eq_nil_iff.mp hchars.symm).1] at hread
  cases hread

/-- **A list of numbers** is told from its text. -/
theorem intercalate_repr_injective
    (h : ", ".intercalate (ns.map Int.repr) = ", ".intercalate (ms.map Int.repr)) : ns = ms := by
  cases ns with
  | nil =>
    cases ms with
    | nil => rfl
    | cons m ms => exact absurd h.symm (intercalate_repr_cons_ne_empty m ms)
  | cons n ns =>
    cases ms with
    | nil => exact absurd h (intercalate_repr_cons_ne_empty n ns)
    | cons m ms =>
      have hchars := congrArg String.toList h
      rw [toList_intercalate_repr, toList_intercalate_repr] at hchars
      exact furtherItems_injective (congrArg (',' :: ' ' :: ·) hchars)

end Lists

/-! ### Effects -/

section Effects
variable {d e : Degree}

theorem degree_eq_of_repr_eq (h : d.val.repr.toList = e.val.repr.toList) : d = e :=
  Fin.ext (Int.ofNat.inj (eq_of_readInt? (readInt?_repr d.val) (readInt?_repr e.val) h))

/-- A degree is told from the text that goes on with a colon. -/
theorem degree_eq_of_append_eq {rest rest' : List Char}
    (h : d.val.repr.toList ++ ':' :: rest = e.val.repr.toList ++ ':' :: rest') :
    d = e ∧ rest = rest' := by
  obtain ⟨hdegree, hrest⟩ := eq_of_append_eq (readInt?_repr d.val) (readInt?_repr e.val)
    (Text.endsRun_cons rfl) (Text.endsRun_cons rfl) h
  exact ⟨Fin.ext (Int.ofNat.inj hdegree), (List.cons.inj hrest).2⟩

/-- **An effect** is told from its text. -/
theorem Effect.describe_injective {effect other : Effect} (h : effect.describe = other.describe) :
    effect = other := by
  have hchars := congrArg String.toList h
  rcases effect with ⟨d, n⟩ | d | ⟨d, n⟩ | ns <;> rcases other with ⟨e, m⟩ | e | ⟨e, m⟩ | ms
  case add.add =>
    simp only [describe, String.toList_append, List.append_assoc, List.append_cancel_left_eq] at hchars
    obtain ⟨rfl, hshift⟩ := degree_eq_of_append_eq hchars
    rw [eq_of_readInt? (readInt?_repr n) (readInt?_repr m) (List.cons.inj hshift).2]
  case «omit».«omit» =>
    simp only [describe, String.toList_append, List.append_cancel_left_eq] at hchars
    rw [degree_eq_of_repr_eq hchars]
  case alter.alter =>
    simp only [describe, String.toList_append, List.append_assoc, List.append_cancel_left_eq] at hchars
    obtain ⟨rfl, hshift⟩ := degree_eq_of_append_eq hchars
    rw [eq_of_readInt? (readInt?_signed n) (readInt?_signed m) hshift]
  case replace.replace =>
    simp only [describe, String.append_left_inj, String.append_right_inj] at h
    rw [intercalate_repr_injective h]
  -- the texts of two kinds begin with two words
  all_goals simp [describe] at hchars

end Effects

/-! ### Rules -/

/-- **The listing loses nothing**: an effect is told from its text, and rules whose effects are listed
alike do the same to all tones. -/
theorem effects_eq_of_info :
    (∀ effect other : Effect, effect.describe = other.describe → effect = other) ∧
    ∀ (P : Type) [Matcher P] (rule other : Rule P), rule.info.effects = other.info.effects →
      rule.effects = other.effects ∧
        ∀ (root : PitchClass) (tones : ToneSet), rule.apply root tones = other.apply root tones := by
  refine ⟨fun _ _ => Effect.describe_injective, fun P _ rule other h => ?_⟩
  have heffects : rule.effects = other.effects :=
    List.map_injective_iff.mpr (fun _ _ => Effect.describe_injective) h
  refine ⟨heffects, fun root tones => ?_⟩
  unfold Rule.apply
  rw [heffects]

theorem effects_eq_of_info_lowered :
    let third : Effect := .add 3 (-9)
    let lowered : Effect := .add (.ofIndex 2) (3 - 12)
    let chord : Rule Pattern := ⟨"Low Third", .chord, .always,
      [.replace [0, -12, 4], third, .alter 5 (-1)]⟩
    let scale : Rule Pattern := ⟨"Third", .scale, .pattern (.word "3"),
      [.replace [0, -12, 4], lowered, .alter 5 (-1)]⟩
    third.describe = lowered.describe ∧ third = lowered ∧
    chord.info.effects = scale.info.effects ∧ chord.effects = scale.effects ∧
    chord.apply (.ofInt 9) .empty = scale.apply (.ofInt 9) .empty := by
  intro third lowered chord scale
  have hthird : third.describe = lowered.describe := by decide
  have hrules : chord.info.effects = scale.info.effects := by decide
  have hlisted := effects_eq_of_info.2 Pattern chord scale hrules
  exact ⟨hthird, effects_eq_of_info.1 third lowered hthird, hrules, hlisted.1,
    hlisted.2 (.ofInt 9) .empty⟩

/-- A negative number keeps its sign, also behind the plus of an addition. -/
example : [Effect.add 3 (-9), .alter 5 (-1), .replace [0, -12, 4]].map Effect.describe =
    ["add 3:+-9", "alter 5:-1", "set [0, -12, 4]"] := by
  decide

end Harmony

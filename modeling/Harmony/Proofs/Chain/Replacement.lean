import Harmony.Proofs.Chain.ClosedForm
import Harmony.Proofs.Transposition

/-! # Chains of replacements

A rule that replaces the whole tone set forgets what the rules above it did. So if the last rule of a
chain that fires is one, it alone gives the tones.

* `entries_ofIntervals`: the tones at given intervals, entry by entry, with the degrees, the pitch
  classes and the look-ups that follow from it.
* `Rule.intervals?`: the intervals of a rule that does nothing but replace the tones.
* `Registry.LastFiring`: the last rule of a registry that fires on a modifier.
* `tones_execute_of_lastFiring`: the tones of a chain that ends with a replacement. -/

namespace Harmony

/-! ### Tones at intervals -/

section Intervals
variable {intervals : List Int} (h : intervals.length ≤ 255) (root : PitchClass)
include h

/-- The tones at intervals that fit the degrees are listed in their order. -/
theorem entries_ofIntervals : (ToneSet.ofIntervals root intervals).entries =
    intervals.zipIdx.map fun x => (Degree.ofIndex x.2, root.transpose x.1) := by
  refine DegreeMap.entries_ofList (List.pairwise_map.mpr ?_)
  have hindices : (intervals.zipIdx.map (·.2)).Pairwise (· < ·) := by
    rw [List.zipIdx_map_snd]
    exact List.pairwise_lt_range'
  refine (List.pairwise_map.mp hindices).imp_of_mem fun {x y} hx hy hlt => ?_
  have hbound : y.2 < intervals.length := (List.mem_zipIdx' hy).1
  rw [Fin.lt_def, Degree.val_ofIndex (by omega), Degree.val_ofIndex (by omega)]
  omega

theorem degrees_ofIntervals : (ToneSet.ofIntervals root intervals).degrees.map (·.val) =
    List.range' 1 intervals.length := by
  unfold DegreeMap.degrees
  rw [entries_ofIntervals h, List.map_map, List.map_map]
  have hvals : ∀ x ∈ intervals.zipIdx, (Degree.ofIndex x.2).val = x.2 + 1 := fun x hx =>
    Degree.val_ofIndex (Nat.lt_of_lt_of_le (List.mem_zipIdx' hx).1 h)
  calc intervals.zipIdx.map (fun x => (Degree.ofIndex x.2).val)
      = intervals.zipIdx.map (fun x => x.2 + 1) := List.map_congr_left hvals
    _ = (intervals.zipIdx.map (·.2)).map (· + 1) := by rw [List.map_map]; rfl
    _ = List.range' 1 intervals.length := by
      rw [List.zipIdx_map_snd]
      simp only [Nat.add_comm _ 1]
      rw [List.map_add_range']

theorem values_ofIntervals :
    (ToneSet.ofIntervals root intervals).values = intervals.map root.transpose := by
  unfold DegreeMap.values
  rw [entries_ofIntervals h, List.map_map]
  conv_rhs => rw [← List.zipIdx_map_fst 0 intervals, List.map_map]
  rfl

theorem get?_ofIntervals_eq_some_iff {d : Degree} {p : PitchClass} :
    (ToneSet.ofIntervals root intervals).get? d = some p ↔
      d.val ≠ 0 ∧ ∃ n, intervals[d.val - 1]? = some n ∧ p = root.transpose n := by
  rw [get?_ofIntervals, intervalAt_of_fits h]
  split_ifs with hd
  · simp [hd]
  · simp only [Option.map_eq_some_iff, ne_eq, hd, not_false_eq_true, true_and, @eq_comm _ p]

theorem get?_ofIntervals_ofNat {i : Nat} (hpos : 0 < i) (hi : i < 256) :
    (ToneSet.ofIntervals root intervals).get? (Fin.ofNat 256 i) =
      (intervals.map root.transpose)[i - 1]? := by
  have hval : (Fin.ofNat 256 i).val = i := Nat.mod_eq_of_lt hi
  rw [get?_ofIntervals, intervalAt_of_fits h, hval, if_neg (by omega), List.getElem?_map]

end Intervals

/-- The interval back from a tone less than an octave above the root. -/
theorem PitchClass.intervalFrom_transpose_of_lt {n : Int} (hpos : 0 ≤ n) (hlt : n < 12)
    (root : PitchClass) : ((root.transpose n).intervalFrom root : Int) = n := by
  rw [intervalFrom_transpose_self, Int.emod_eq_of_lt hpos hlt]

section Rules
variable {P : Type}

/-! ### Replacing rules -/

/-- The intervals of a rule that does nothing but replace the tones. -/
def Rule.intervals? (rule : Rule P) : Option (List Int) :=
  match rule.effects with
  | [.replace intervals] => some intervals
  | _ => none

/-- **A replacing rule forgets the tones before it.** -/
theorem apply_of_intervals? {rule : Rule P} {intervals : List Int}
    (h : rule.intervals? = some intervals) (root : PitchClass) (tones : ToneSet) :
    rule.apply root tones = .ofIntervals root intervals := by
  unfold Rule.intervals? at h
  split at h
  · rename_i heffects
    obtain rfl := Option.some.inj h
    unfold Rule.apply
    rw [heffects]
    rfl
  · cases h

/-! ### The last rule that fires -/

/-- The rule fires on the modifier, and none below it does. -/
def Registry.LastFiring [Matcher P] (registry : Registry P) (modifier : String) (rule : Rule P) :
    Prop :=
  ∃ above below, registry.rules = above ++ rule :: below ∧ rule.fires modifier = true ∧
    ∀ other ∈ below, other.fires modifier = false

section Last
variable [Matcher P] {registry : Registry P} {modifier : String} {rule : Rule P}

theorem exists_lastFiring (hrule : rule ∈ registry.rules) (hfires : rule.fires modifier = true) :
    ∃ last, registry.LastFiring modifier last := by
  -- from below, the last rule that fires is the first one found
  have hsome : (registry.rules.reverse.find? (·.fires modifier)).isSome = true :=
    List.find?_isSome.mpr ⟨rule, List.mem_reverse.mpr hrule, hfires⟩
  obtain ⟨last, hlast⟩ := Option.isSome_iff_exists.mp hsome
  obtain ⟨hlast, below, above, hsplit, hbelow⟩ := List.find?_eq_some_iff_append.mp hlast
  refine ⟨last, above.reverse, below.reverse, ?_, hlast, fun other hother => ?_⟩
  · rw [← List.reverse_reverse registry.rules, hsplit]
    simp
  · simpa using hbelow other (List.mem_reverse.mp hother)

namespace Registry.LastFiring

variable (h : registry.LastFiring modifier rule)
include h

theorem mem_rules : rule ∈ registry.rules := by
  obtain ⟨above, below, hrules, -, -⟩ := h
  rw [hrules]
  exact List.mem_append_right above List.mem_cons_self

theorem fires : rule.fires modifier = true := by
  obtain ⟨-, -, -, hfires, -⟩ := h
  exact hfires

theorem exists_firing_eq : ∃ above, registry.firing modifier = above ++ [rule] := by
  obtain ⟨above, below, hrules, hfires, hbelow⟩ := h
  refine ⟨above.filter (·.fires modifier), ?_⟩
  have hnone : below.filter (·.fires modifier) = [] :=
    List.filter_eq_nil_iff.mpr fun other hother => by simp [hbelow other hother]
  unfold Registry.firing
  rw [hrules, List.filter_append, List.filter_cons_of_pos (by exact hfires), hnone]

theorem getLast?_applied : (registry.applied modifier).getLast? = some rule.name := by
  obtain ⟨above, hfiring⟩ := h.exists_firing_eq
  unfold Registry.applied
  rw [hfiring]
  simp

end Registry.LastFiring

/-- **The tones of a chain that ends with a replacement** are those of its last rule. -/
theorem tones_execute_of_lastFiring (h : registry.LastFiring modifier rule) {intervals : List Int}
    (hrule : rule.intervals? = some intervals) (root : PitchClass) :
    (registry.execute root modifier).tones = .ofIntervals root intervals := by
  obtain ⟨above, hfiring⟩ := h.exists_firing_eq
  unfold Registry.execute
  simp only [hfiring, List.foldl_append, List.foldl_cons, List.foldl_nil]
  exact apply_of_intervals? hrule root _

end Last

end Rules

end Harmony

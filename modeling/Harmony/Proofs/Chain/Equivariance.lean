import Harmony.Chord
import Harmony.Proofs.Chain.Degreewise
import Harmony.Scale

/-! # Chains under transposition

A chain knows pitch classes through their distances from the root only. So moving the root moves all
tones and changes nothing else: neither the rules that fire nor the degrees.

* `execute_transpose`: a chain from a moved root.
* `Chord.ofName_of_tokenize`, `Scale.ofName_of_tokenize`: what a name resolves to, read off its
  parts.
* `TonesMoved`: the same degrees, and at each of them the interval between the roots.
* `resolution_equivariant`: names with one modifier resolve to moved tones. -/

namespace Harmony

/-! ### The chain -/

/-- The result with every tone moved. -/
def ChainOutput.transpose (output : ChainOutput) (semitones : Int) : ChainOutput :=
  { output with tones := output.tones.map (·.transpose semitones) }

/-- **A chain from a moved root** fires the same rules and moves every tone. -/
theorem execute_transpose {P : Type} [Matcher P] (registry : Registry P) (root : PitchClass)
    (semitones : Int) (modifier : String) :
    registry.execute (root.transpose semitones) modifier =
      (registry.execute root modifier).transpose semitones := by
  have htones : (registry.execute (root.transpose semitones) modifier).tones =
      (registry.execute root modifier).tones.map (·.transpose semitones) := by
    refine DegreeMap.eq_of_get? fun d => ?_
    rw [DegreeMap.get?_map, get?_execute, get?_execute, Option.map_map]
    refine congrArg (Option.map · (registry.distance modifier d)) (funext fun distance => ?_)
    exact root.transpose_comm semitones distance
  exact congrArg (ChainOutput.mk · (registry.applied modifier)) htones

/-! ### Names -/

theorem Chord.ofName_of_tokenize {name : String} {parsed : ParsedName}
    (h : tokenize name = .ok parsed) (options : ResolveOptions) :
    Chord.ofName name options =
      let output := Catalogue.chords.execute parsed.root.pitchClass parsed.modifier
      .ok ⟨name, parsed.root.pitchClass, options.spellingFor parsed.root, output.tones,
        output.applied⟩ := by
  unfold Chord.ofName Chord.resolve
  rw [h]
  rfl

/-- Without strictness a scale name fails by its root only. -/
theorem Scale.ofName_of_tokenize {name : String} {parsed : ParsedName}
    (h : tokenize name = .ok parsed) (spelling : Option Spelling) :
    Scale.ofName name ⟨spelling, false⟩ =
      let output := Catalogue.scales.execute parsed.root.pitchClass parsed.modifier
      .ok ⟨name, parsed.root.pitchClass, spelling.getD parsed.root.spelling, Scale.modeOf output,
        output.tones, output.applied⟩ := by
  unfold Scale.ofName Scale.resolve
  rw [h]
  rfl

/-- The tones above `root'` are those above `root`, moved by the interval between the roots. -/
structure TonesMoved (root root' : PitchClass) (tones tones' : ToneSet) : Prop where
  degrees : tones'.degrees = tones.degrees
  interval : ∀ d p p', tones.get? d = some p → tones'.get? d = some p' →
    p'.intervalFrom p = root'.intervalFrom root
  eq_of_roots : root' = root → tones' = tones

theorem tonesMoved_execute (registry : Registry Pattern) (root root' : PitchClass)
    (modifier : String) :
    TonesMoved root root' (registry.execute root modifier).tones
      (registry.execute root' modifier).tones := by
  have hmove := execute_transpose registry root (root'.intervalFrom root) modifier
  rw [PitchClass.transpose_intervalFrom] at hmove
  rw [hmove]
  refine ⟨DegreeMap.degrees_map _ _, fun d p p' hp hp' => ?_, fun hroot => ?_⟩
  · simp only [ChainOutput.transpose, DegreeMap.get?_map, hp, Option.map_some,
      Option.some.injEq] at hp'
    subst hp'
    have hmoved := p.intervalFrom_transpose_self (root'.intervalFrom root)
    have hlt := root'.intervalFrom_lt root
    omega
  · rw [← hmove, hroot]

/-- **Transposition equivariance.** A chain from a moved root is the moved chain. So two names with
one modifier fire the same rules, and their tones differ by the interval between the roots; roots
that sound alike give the same tones, however they are written. -/
theorem resolution_equivariant :
    (∀ (P : Type) [Matcher P] (registry : Registry P) (root : PitchClass) (semitones : Int)
      (modifier : String),
      registry.execute (root.transpose semitones) modifier =
        (registry.execute root modifier).transpose semitones) ∧
    (∀ (name name' : String) (parsed parsed' : ParsedName), tokenize name = .ok parsed →
      tokenize name' = .ok parsed' → parsed'.modifier = parsed.modifier →
      (∀ options options', ∃ chord chord', Chord.ofName name options = .ok chord ∧
        Chord.ofName name' options' = .ok chord' ∧ chord.root = parsed.root.pitchClass ∧
        chord'.root = parsed'.root.pitchClass ∧ chord'.rules = chord.rules ∧
        TonesMoved chord.root chord'.root chord.tones chord'.tones) ∧
      ∀ spelling spelling', ∃ scale scale', Scale.ofName name ⟨spelling, false⟩ = .ok scale ∧
        Scale.ofName name' ⟨spelling', false⟩ = .ok scale' ∧
        scale.root = parsed.root.pitchClass ∧ scale'.root = parsed'.root.pitchClass ∧
        scale'.rules = scale.rules ∧ scale'.mode = scale.mode ∧
        TonesMoved scale.root scale'.root scale.tones scale'.tones) ∧
    (⟨.D, .flat⟩ : Note).pitchClass = (⟨.C, .sharp⟩ : Note).pitchClass ∧
    (⟨.B, .sharp⟩ : Note).pitchClass = (⟨.C, .natural⟩ : Note).pitchClass ∧
    (⟨.F, .flat⟩ : Note).pitchClass = (⟨.E, .natural⟩ : Note).pitchClass := by
  refine ⟨fun _ _ => execute_transpose, fun name name' parsed parsed' h h' hmodifier => ⟨?_, ?_⟩,
    by decide, by decide, by decide⟩
  · intro options options'
    refine ⟨_, _, Chord.ofName_of_tokenize h options, Chord.ofName_of_tokenize h' options', rfl, rfl,
      ?_, ?_⟩
    · rw [hmodifier]; rfl
    · rw [hmodifier]; exact tonesMoved_execute _ _ _ _
  · intro spelling spelling'
    refine ⟨_, _, Scale.ofName_of_tokenize h spelling, Scale.ofName_of_tokenize h' spelling', rfl,
      rfl, ?_, ?_, ?_⟩
    · rw [hmodifier]; rfl
    · rw [hmodifier]; rfl
    · rw [hmodifier]; exact tonesMoved_execute _ _ _ _

theorem resolution_equivariant_minor_seventh :
    tokenize "B#m7" = .ok ⟨⟨.B, .sharp⟩, true, "m7"⟩ ∧
    tokenize "Eb  m7 " = .ok ⟨⟨.E, .flat⟩, false, "m7"⟩ ∧
    ∃ chord chord', Chord.ofName "B#m7" {} = .ok chord ∧ Chord.ofName "Eb  m7 " {} = .ok chord' ∧
      chord.root = .ofInt 0 ∧ chord'.root = .ofInt 3 ∧ chord'.rules = chord.rules ∧
      TonesMoved chord.root chord'.root chord.tones chord'.tones := by
  have h : tokenize "B#m7" = .ok ⟨⟨.B, .sharp⟩, true, "m7"⟩ := by rfl
  have h' : tokenize "Eb  m7 " = .ok ⟨⟨.E, .flat⟩, false, "m7"⟩ := by rfl
  exact ⟨h, h', (resolution_equivariant.2.1 _ _ _ _ h h' rfl).1 {} {}⟩

end Harmony

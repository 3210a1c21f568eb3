import Harmony.Catalogue.Chord
import Harmony.Catalogue.Scale
import Harmony.Proofs.Pattern.Reading
import Harmony.Registration
import Mathlib.Data.List.Forall2

/-! # Registries after requests

A registry grows at its end only. So a rule that is found by its name is found ever after, whatever
bears its name below it, while in a chain the rule that came last has the last word. A rule that is
refused leaves no trace. All this holds for whatever compiles the patterns; of the listing one thing has
to be known of it, that a compiled pattern keeps its text.

* `execute_register`: what one more rule does to a chain.
* `Registry.FirstNamed`, `find?_eq_some_iff`: the rule that is found by a name.
* `RuleSource.isMalformed`, `RuleSource.Compiled`: the rules that are refused, and what becomes of the
  others.
* `rules_answerAll`: the rules after any requests.
* `answerAll_filter`: the requests that are not refused, without those that are.
* `AfterRequests`, `afterRequests_of_answerAll`: what holds of a registry after any requests. -/

namespace Harmony

variable {P : Type} {registry : Registry P} {rule : Rule P} {name : String}

/-! ### One more rule -/

section Chains
variable [Matcher P]

theorem firing_register (registry : Registry P) (rule : Rule P) (modifier : String) :
    (registry.register rule).firing modifier =
      registry.firing modifier ++ if rule.fires modifier = true then [rule] else [] := by
  unfold Registry.firing Registry.register
  rw [List.filter_append]
  refine congrArg (registry.rules.filter _ ++ ·) ?_
  split
  · exact List.filter_cons_of_pos ‹_›
  · exact List.filter_cons_of_neg ‹_›

/-- **One more rule** acts on the result of all others, and on a modifier that it does not fire on it
changes nothing. -/
theorem execute_register (registry : Registry P) (rule : Rule P) (root : PitchClass)
    (modifier : String) : (registry.register rule).execute root modifier =
      if rule.fires modifier = true then
        ⟨rule.apply root (registry.execute root modifier).tones,
          (registry.execute root modifier).applied ++ [rule.name]⟩
      else registry.execute root modifier := by
  unfold Registry.execute
  rw [firing_register]
  split
  · simp only [List.foldl_append, List.foldl_cons, List.foldl_nil, List.map_append, List.map_cons,
      List.map_nil]
  · rw [List.append_nil]

end Chains

/-! ### Names -/

/-- The rule bears the name, up to the case of ASCII letters, and no rule above it does. -/
def Registry.FirstNamed (registry : Registry P) (name : String) (rule : Rule P) : Prop :=
  ∃ above below, registry.rules = above ++ rule :: below ∧
    rule.name.toList.map Char.toLower = name.toList.map Char.toLower ∧
    ∀ other ∈ above, other.name.toList.map Char.toLower ≠ name.toList.map Char.toLower

/-- **The rule that is found by a name** is the first that bears it. -/
theorem find?_eq_some_iff : registry.find? name = some rule ↔ registry.FirstNamed name rule := by
  unfold Registry.find? Registry.FirstNamed
  rw [List.find?_eq_some_iff_append]
  simp only [sameName, beq_iff_eq, Bool.not_eq_true', beq_eq_false_iff_ne]
  constructor
  · rintro ⟨hname, above, below, hrules, habove⟩
    exact ⟨above, below, hrules, hname, habove⟩
  · rintro ⟨above, below, hrules, hname, habove⟩
    exact ⟨hname, above, below, hrules, habove⟩

/-- Rules below the one that is found do not hide it. -/
theorem Registry.FirstNamed.mono {larger : Registry P} (h : registry.FirstNamed name rule)
    (hlarger : registry.rules <+: larger.rules) : larger.FirstNamed name rule := by
  obtain ⟨above, below, hrules, hname, habove⟩ := h
  obtain ⟨more, hmore⟩ := hlarger
  refine ⟨above, below ++ more, ?_, hname, habove⟩
  rw [← hmore, hrules, List.append_assoc, List.cons_append]

/-! ### Written rules -/

section Written
variable {compile? : String → Option P} {source : RuleSource}

/-- Is the written pattern malformed? -/
def RuleSource.isMalformed (compile? : String → Option P) (source : RuleSource) : Bool :=
  source.pattern.any fun text => (compile? text).isNone

/-- A rule in words, told from what is written. -/
def RuleSource.info (source : RuleSource) : RuleInfo :=
  ⟨source.name, source.kind, source.pattern.getD "always", source.effects.map Effect.describe⟩

theorem rule?_eq_none_iff :
    source.rule? compile? = none ↔ source.isMalformed compile? = true := by
  unfold RuleSource.rule? Rule.ofSource? RuleSource.isMalformed
  rw [Option.map_eq_none_iff]
  cases source.pattern with
  | none => simp [Trigger.ofSource?]
  | some text => simp [Trigger.ofSource?]

theorem exists_rule?_of_not_malformed (h : source.isMalformed compile? = false) :
    ∃ rule, source.rule? compile? = some rule := by
  refine Option.ne_none_iff_exists'.mp fun hnone => ?_
  rw [rule?_eq_none_iff, h] at hnone
  cases hnone

variable [Matcher P]

/-- The rule is the one that is written, with what its pattern is compiled to. It fires on the modifiers
in which the pattern occurs; without a pattern it fires on all. -/
structure RuleSource.Compiled (compile? : String → Option P) (source : RuleSource) (rule : Rule P) :
    Prop where
  name : rule.name = source.name
  kind : rule.kind = source.kind
  always : source.pattern = none → rule.trigger = .always
  pattern : ∀ text, source.pattern = some text →
    ∃ p, compile? text = some p ∧ rule.trigger = .pattern p
  effects : rule.effects = source.effects
  fires : ∀ modifier, rule.fires modifier = true ↔ ∀ text, source.pattern = some text →
    modifier ≠ "" ∧ ∃ p, compile? text = some p ∧ Matcher.occursIn p modifier = true

/-- The entry tells the name of the rule, its kind, the text of its pattern, if it has one, and its
effects. -/
structure RuleInfo.Lists (info : RuleInfo) (rule : Rule P) : Prop where
  name : info.name = rule.name
  kind : info.kind = rule.kind
  always : rule.trigger = .always → info.trigger = "always"
  pattern : ∀ p, rule.trigger = .pattern p → info.trigger = Matcher.source p
  effects : info.effects = rule.effects.map Effect.describe

/-- What is compiled keeps its text. -/
def KeepsText (compile? : String → Option P) : Prop :=
  ∀ text p, compile? text = some p → Matcher.source p = text

theorem keepsText_parse? : KeepsText Pattern.parse? := fun _ _ => Pattern.source_of_parse?

/-- **A rule that is compiled** is the one that is written. -/
theorem compiled_of_rule? (h : source.rule? compile? = some rule) :
    source.Compiled compile? rule := by
  obtain ⟨trigger, htrigger, rfl⟩ := Option.map_eq_some_iff.mp h
  cases hpattern : source.pattern with
  | none =>
    rw [hpattern] at htrigger
    obtain rfl := Option.some.inj htrigger
    exact ⟨rfl, rfl, fun _ => rfl, by simp [hpattern], rfl,
      by simp [hpattern, Rule.fires, Trigger.fires]⟩
  | some text =>
    rw [hpattern] at htrigger
    obtain ⟨p, hp, rfl⟩ := Option.map_eq_some_iff.mp htrigger
    exact ⟨rfl, rfl, by simp [hpattern], by simp [hpattern, hp], rfl,
      by simp [hpattern, hp, Rule.fires, Trigger.fires]⟩

theorem lists_info (rule : Rule P) : rule.info.Lists rule where
  name := rfl
  kind := rfl
  always h := by
    unfold Rule.info
    rw [h]
    rfl
  pattern p h := by
    unfold Rule.info
    rw [h]
    rfl
  effects := rfl

/-- **The listing of a rule** is told from what is written, if compiled patterns keep their texts. -/
theorem info_of_compiled (hkeeps : KeepsText compile?) (h : source.Compiled compile? rule) :
    rule.info = source.info := by
  have htrigger : rule.info.trigger = source.info.trigger := by
    unfold RuleSource.info
    cases hpattern : source.pattern with
    | none => exact (lists_info rule).always (h.always hpattern)
    | some text =>
      obtain ⟨p, hp, hrule⟩ := h.pattern text hpattern
      exact ((lists_info rule).pattern p hrule).trans (hkeeps text p hp)
  unfold Rule.info RuleSource.info at htrigger ⊢
  rw [h.name, h.kind, h.effects]
  exact congrArg (RuleInfo.mk _ _ · _) htrigger

end Written

/-! ### One request -/

namespace Registry

/-- The rule that a request registers, if any. -/
def Request.rule? (compile? : String → Option P) : Request → Option (Rule P)
  | .register source => source.rule? compile?
  | .names | .info | .find _ | .execute _ _ => none

/-- The written rule that a request registers, if any. -/
def Request.accepted? (compile? : String → Option P) : Request → Option RuleSource
  | .register source => if source.isMalformed compile? then none else some source
  | .names | .info | .find _ | .execute _ _ => none

/-- Is the request refused? -/
def Request.isRefused (compile? : String → Option P) : Request → Bool
  | .register source => source.isMalformed compile?
  | .names | .info | .find _ | .execute _ _ => false

/-- Is the reply a refusal? -/
def Reply.isRefusal : Reply P → Bool
  | .refused => true
  | .registered _ | .names _ | .info _ | .found _ | .result _ => false

end Registry

open Registry

section Requests
variable [Matcher P] {compile? : String → Option P} {source : RuleSource} {request : Request}
  {requests : List Request}

theorem answer_register_of_some (h : source.rule? compile? = some rule) :
    registry.answer compile? (.register source) = (.registered rule.info, registry.register rule) := by
  simp only [Registry.answer, h]

theorem answer_register_of_malformed (h : source.isMalformed compile? = true) :
    registry.answer compile? (.register source) = (.refused, registry) := by
  simp only [Registry.answer, rule?_eq_none_iff.mpr h]

theorem rules_answer (registry : Registry P) (request : Request) :
    (registry.answer compile? request).2.rules =
      registry.rules ++ (request.rule? compile?).toList := by
  cases request with
  | register source =>
    have hrequest : (Request.register source).rule? compile? = source.rule? compile? := rfl
    rw [hrequest]
    cases hrule : source.rule? compile? with
    | none =>
      rw [answer_register_of_malformed (rule?_eq_none_iff.mp hrule)]
      exact (List.append_nil _).symm
    | some rule =>
      rw [answer_register_of_some hrule]
      rfl
  | names | info | find | execute => exact (List.append_nil _).symm

/-- **A request that is refused** changes nothing. -/
theorem answer_of_isRefused (h : request.isRefused compile? = true) :
    registry.answer compile? request = (.refused, registry) := by
  cases request with
  | register source => exact answer_register_of_malformed h
  | names | info | find | execute => cases h

/-- A refusal is the reply to what is refused. -/
theorem isRefusal_answer (registry : Registry P) (request : Request) :
    (registry.answer compile? request).1.isRefusal = request.isRefused compile? := by
  cases request with
  | register source =>
    cases hmalformed : source.isMalformed compile? with
    | true =>
      rw [answer_register_of_malformed hmalformed]
      exact hmalformed.symm
    | false =>
      obtain ⟨rule, hrule⟩ := exists_rule?_of_not_malformed hmalformed
      rw [answer_register_of_some hrule]
      exact hmalformed.symm
  | names | info | find | execute => rfl

/-! ### Many requests -/

theorem answerAll_cons (registry : Registry P) (request : Request) (requests : List Request) :
    registry.answerAll compile? (request :: requests) =
      ((registry.answer compile? request).1 ::
          ((registry.answer compile? request).2.answerAll compile? requests).1,
        ((registry.answer compile? request).2.answerAll compile? requests).2) := rfl

theorem length_answerAll (registry : Registry P) (requests : List Request) :
    (registry.answerAll compile? requests).1.length = requests.length := by
  induction requests generalizing registry with
  | nil => rfl
  | cons request requests ih => rw [answerAll_cons, List.length_cons, List.length_cons, ih]

theorem answerAll_append (registry : Registry P) (before behind : List Request) :
    registry.answerAll compile? (before ++ behind) =
      ((registry.answerAll compile? before).1 ++
          ((registry.answerAll compile? before).2.answerAll compile? behind).1,
        ((registry.answerAll compile? before).2.answerAll compile? behind).2) := by
  induction before generalizing registry with
  | nil => rfl
  | cons request before ih => rw [List.cons_append, answerAll_cons, ih, answerAll_cons, List.cons_append]

/-- **A reply** is given by the registry that the requests before it leave. -/
theorem getElem?_answerAll (registry : Registry P) (before behind : List Request) (request : Request) :
    (registry.answerAll compile? (before ++ request :: behind)).1[before.length]? =
      some ((registry.answerAll compile? before).2.answer compile? request).1 := by
  rw [answerAll_append, List.getElem?_append_right (Nat.le_of_eq (length_answerAll registry before)),
    length_answerAll, Nat.sub_self, answerAll_cons]
  rfl

/-- **The rules after requests** are those before them and, in order, those that were registered. -/
theorem rules_answerAll (registry : Registry P) (requests : List Request) :
    (registry.answerAll compile? requests).2.rules =
      registry.rules ++ requests.filterMap (Request.rule? compile?) := by
  induction requests generalizing registry with
  | nil => exact (List.append_nil _).symm
  | cons request requests ih =>
    rw [answerAll_cons, ih, rules_answer, List.append_assoc]
    cases hrule : request.rule? compile? with
    | none => rw [List.filterMap_cons_none hrule, Option.toList_none, List.nil_append]
    | some rule => rw [List.filterMap_cons_some hrule, Option.toList_some, List.singleton_append]

theorem isPrefix_rules_answerAll (registry : Registry P) (requests : List Request) :
    registry.rules <+: (registry.answerAll compile? requests).2.rules :=
  ⟨_, (rules_answerAll registry requests).symm⟩

/-- **The rules that are registered** are those that are written without a malformed pattern. -/
theorem forall₂_compiled (requests : List Request) :
    List.Forall₂ (RuleSource.Compiled compile?) (requests.filterMap (Request.accepted? compile?))
      (requests.filterMap (Request.rule? compile?)) := by
  induction requests with
  | nil => exact .nil
  | cons request requests ih =>
    cases request with
    | register source =>
      cases hmalformed : source.isMalformed compile? with
      | true =>
        have haccepted : (Request.register source).accepted? compile? = none := if_pos hmalformed
        have hrule : (Request.register source).rule? compile? = none :=
          rule?_eq_none_iff.mpr hmalformed
        rwa [List.filterMap_cons_none haccepted, List.filterMap_cons_none hrule]
      | false =>
        obtain ⟨rule, hrule⟩ := exists_rule?_of_not_malformed hmalformed
        have hcompiled := compiled_of_rule? hrule
        have haccepted : (Request.register source).accepted? compile? = some source :=
          if_neg (by simp [hmalformed])
        replace hrule : (Request.register source).rule? compile? = some rule := hrule
        rw [List.filterMap_cons_some haccepted, List.filterMap_cons_some hrule]
        exact .cons hcompiled ih
    | names | info | find | execute => exact ih

/-- **Requests that are refused may be left out**: all other replies and the registry are the same. -/
theorem answerAll_filter (registry : Registry P) (requests : List Request) :
    registry.answerAll compile? (requests.filter (!·.isRefused compile?)) =
      ((registry.answerAll compile? requests).1.filter (!·.isRefusal),
        (registry.answerAll compile? requests).2) := by
  induction requests generalizing registry with
  | nil => rfl
  | cons request requests ih =>
    have hreply : (registry.answer compile? request).1.isRefusal = request.isRefused compile? :=
      isRefusal_answer registry request
    cases hrefused : request.isRefused compile? with
    | true =>
      rw [hrefused] at hreply
      rw [List.filter_cons_of_neg (by simp [hrefused]), ih, answerAll_cons,
        List.filter_cons_of_neg (by simp [hreply]), answer_of_isRefused hrefused]
    | false =>
      rw [hrefused] at hreply
      rw [List.filter_cons_of_pos (by simp [hrefused]), answerAll_cons, answerAll_cons, ih,
        List.filter_cons_of_pos (by simp [hreply])]

end Requests

/-! ### Registries after requests -/

theorem map_eq_map_of_forall₂ {α β γ : Type} {R : α → β → Prop} {f : α → γ} {g : β → γ} {as : List α}
    {bs : List β} (h : List.Forall₂ R as bs) (hR : ∀ a b, R a b → g b = f a) :
    bs.map g = as.map f := by
  induction h with
  | nil => rfl
  | cons hab _ ih => rw [List.map_cons, List.map_cons, hR _ _ hab, ih]

/-- What holds of a registry after requests. -/
structure AfterRequests [Matcher P] (compile? : String → Option P) (initial : Registry P)
    (requests : List Request) (after : Registry P) : Prop where
  /-- The rules at the end are those that were written, as far as their patterns could be compiled. -/
  rules : ∃ added, after.rules = initial.rules ++ added ∧
    List.Forall₂ (RuleSource.Compiled compile?) (requests.filterMap (Request.accepted? compile?)) added
  names : after.names =
    initial.names ++ (requests.filterMap (Request.accepted? compile?)).map (·.name)
  info : after.info = initial.info ++ (requests.filterMap (Request.accepted? compile?)).map
    fun source => ⟨source.name, source.kind, source.pattern.getD "always",
      source.effects.map Effect.describe⟩
  listed : List.Forall₂ RuleInfo.Lists after.info after.rules
  found : ∀ name rule, after.find? name = some rule ↔ after.FirstNamed name rule
  kept : ∀ name rule, after.find? name = some rule →
    ∀ more, (after.answerAll compile? more).2.find? name = some rule
  /-- Without the requests that are refused all other replies and the registry are the same. -/
  without_refused : initial.answerAll compile? (requests.filter (!·.isRefused compile?)) =
    ((initial.answerAll compile? requests).1.filter (!·.isRefusal), after)
  refused : ∀ source : RuleSource, source.isMalformed compile? = true →
    after.answer compile? (.register source) = (.refused, after)
  registered : ∀ source : RuleSource, source.isMalformed compile? = false →
    ∃ rule larger, source.Compiled compile? rule ∧ larger.rules = after.rules ++ [rule] ∧
      after.answer compile? (.register source) = (.registered ⟨source.name, source.kind,
        source.pattern.getD "always", source.effects.map Effect.describe⟩, larger) ∧
      ∀ root modifier, larger.execute root modifier =
        if rule.fires modifier = true then
          ⟨rule.apply root (after.execute root modifier).tones,
            (after.execute root modifier).applied ++ [rule.name]⟩
        else after.execute root modifier
  /-- Every reply is given by the registry that the requests before it leave. -/
  replies : ∀ before request behind, requests = before ++ request :: behind →
    (initial.answerAll compile? requests).1[before.length]? =
      some ((initial.answerAll compile? before).2.answer compile? request).1
  asked : after.answer compile? .names = (.names after.names, after) ∧
    after.answer compile? .info = (.info after.info, after) ∧
    (∀ name, after.answer compile? (.find name) = (.found (after.find? name), after)) ∧
    ∀ root modifier, after.answer compile? (.execute root modifier) =
      (.result (after.execute root modifier), after)

/-- **A registry after any requests** holds the rules it began with and, behind them, all that were
written without a malformed pattern. The first rule of a name stays the one that is found, and the last
rule has the last word. -/
theorem afterRequests_of_answerAll [Matcher P] {compile? : String → Option P}
    (hkeeps : KeepsText compile?) (initial : Registry P) (requests : List Request) :
    AfterRequests compile? initial requests (initial.answerAll compile? requests).2 where
  rules := ⟨_, rules_answerAll initial requests, forall₂_compiled requests⟩
  names := by
    unfold Registry.names
    rw [rules_answerAll, List.map_append]
    exact congrArg _ (map_eq_map_of_forall₂ (forall₂_compiled requests) fun _ _ h => h.name)
  info := by
    unfold Registry.info
    rw [rules_answerAll, List.map_append]
    exact congrArg _
      (map_eq_map_of_forall₂ (forall₂_compiled requests) fun _ _ h => info_of_compiled hkeeps h)
  listed := by
    unfold Registry.info
    rw [List.forall₂_map_left_iff, List.forall₂_same]
    exact fun rule _ => lists_info rule
  found _ _ := find?_eq_some_iff
  kept name rule hfound more := by
    rw [find?_eq_some_iff] at hfound ⊢
    exact hfound.mono (isPrefix_rules_answerAll _ more)
  without_refused := answerAll_filter initial requests
  refused _ hmalformed := answer_register_of_malformed hmalformed
  registered source hmalformed := by
    obtain ⟨rule, hrule⟩ := exists_rule?_of_not_malformed hmalformed
    have hcompiled := compiled_of_rule? hrule
    refine ⟨rule, _, hcompiled, rfl, ?_, execute_register _ rule⟩
    rw [answer_register_of_some hrule, info_of_compiled hkeeps hcompiled]
    rfl
  replies before request behind h := by
    subst h
    exact getElem?_answerAll initial before behind request
  asked := ⟨rfl, rfl, fun _ => rfl, fun _ _ => rfl⟩

theorem afterRequests_of_answerAll_seventh :
    let seventh : RuleSource := ⟨"Seventh", .chord, some "(?:dom\\s*)?7", [.add 7 10]⟩
    let broken : RuleSource := ⟨"Broken", .chord, some "(7", [.omit 7]⟩
    let requests := [Request.register seventh, .register broken, .find "SEVENTH"]
    let after := (Catalogue.scales.answerAll Pattern.parse? requests).2
    KeepsText Pattern.parse? ∧ AfterRequests Pattern.parse? Catalogue.scales requests after ∧
    after.names = Catalogue.scales.names ++ ["Seventh"] ∧
    after.info = Catalogue.scales.info ++ [⟨"Seventh", .chord, "(?:dom\\s*)?7", ["add 7:+10"]⟩] ∧
    after.answer Pattern.parse? (.register broken) = (.refused, after) := by
  intro seventh broken requests after
  have hafter := afterRequests_of_answerAll keepsText_parse? Catalogue.scales requests
  have haccepted : requests.filterMap (Request.accepted? Pattern.parse?) = [seventh] := by
    decide +kernel
  have hnames := hafter.names
  have hinfo := hafter.info
  rw [haccepted] at hnames hinfo
  exact ⟨keepsText_parse?, hafter, hnames, hinfo, hafter.refused broken (by decide +kernel)⟩

end Harmony

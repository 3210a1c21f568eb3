import Harmony.Proofs.Pattern.Steady

/-! # Patterns in variants of a text

A steady pattern matches at alike places. That does not yet mean that it occurs in alike texts: a match
may begin inside a run of blanks, at a place that the other text does not have. A pattern *leads* if such
a match reads the last blank of the run and nothing but that blank; then the other text has a place for
it, however many blanks there are.

* `Somewhere`, `Leads`: what holds at places of a text. What leads holds somewhere in both of two alike
  texts (`somewhere_of_alike`).
* `Pattern.leads`: the same told from the form of a pattern (`exists_leads`).
* `occursIn_eq_of_plain_eq`: a leading pattern occurs in all texts of one plain form or in none. -/

namespace Harmony

open Text

/-! ### Somewhere in a text -/

/-- It holds at some place of the text. -/
def Somewhere (L : Cursor → Prop) : Bool → List Char → Prop
  | atStart, [] => L ⟨atStart, []⟩
  | atStart, c :: cs => L ⟨atStart, c :: cs⟩ ∨ Somewhere L false cs

/-- In front of a blank, `L` holds if and only if `E` does behind the blank, and `E` does not hold in
front of another blank. -/
structure Leads (L : Cursor → Prop) (E : List Char → Prop) : Prop where
  edge : ∀ atStart b cs, isBlank b = true → (L ⟨atStart, b :: cs⟩ ↔ E cs)
  last : ∀ b cs, isBlank b = true → ¬ E (b :: cs)
  /-- Away from blanks, `L` holds at alike places. -/
  letter : ∀ ⦃atStart cs ds⦄, Alike cs ds → (∀ c ∈ cs.head?, isBlank c = false) →
    L ⟨atStart, cs⟩ → L ⟨atStart, ds⟩
  alike : ∀ ⦃cs ds⦄, Alike cs ds → E cs → E ds

variable {L : Cursor → Prop} {E : List Char → Prop}

/-- **In a run of blanks**, what leads holds at the last one or nowhere. -/
theorem somewhere_blanks (h : Leads L E) {b : Char} (hb : isBlank b = true) (atStart : Bool)
    (cs : List Char) : Somewhere L atStart (b :: cs) ↔
      E (trimStart cs) ∨ Somewhere L false (trimStart cs) := by
  unfold Somewhere trimStart
  rw [h.edge atStart b cs hb]
  -- the induction is on the rest of the run; as long as it goes on, `E` fails
  induction cs with
  | nil => rfl
  | cons c cs ih =>
    rw [List.dropWhile_cons]
    split
    · rename_i hc
      rw [iff_false_intro (h.last c cs hc), false_or, ← ih, Somewhere, h.edge false c cs hc]
    · rfl

/-- **What leads holds somewhere in both of two alike texts.** -/
theorem somewhere_of_alike (h : Leads L E) {cs ds : List Char} (halike : Alike cs ds) {atStart : Bool}
    (hsome : Somewhere L atStart cs) : Somewhere L atStart ds := by
  induction halike generalizing atStart with
  | nil => exact hsome
  | letter hc hd hcd rest ih =>
    refine hsome.imp (h.letter (.letter hc hd hcd rest) ?_) ih
    simpa using hc
  | blanks hc hd rest ih =>
    rw [somewhere_blanks h hc] at hsome
    rw [somewhere_blanks h hd]
    exact hsome.imp (h.alike rest) ih

theorem leads_of_refuses (hrespects : Respects L) (hrefuses : Refuses L) :
    Leads L fun _ => False where
  edge atStart b cs hb := iff_false_intro (hrefuses atStart b cs hb)
  last _ _ _ := id
  letter _ _ _ halike _ := hrespects.carry halike
  alike _ _ _ := id

theorem Leads.or {L' : Cursor → Prop} {E' : List Char → Prop} (h : Leads L E) (h' : Leads L' E') :
    Leads (fun cursor => L cursor ∨ L' cursor) fun cs => E cs ∨ E' cs where
  edge atStart b cs hb := or_congr (h.edge atStart b cs hb) (h'.edge atStart b cs hb)
  last b cs hb := not_or.mpr ⟨h.last b cs hb, h'.last b cs hb⟩
  letter _ _ _ halike hhead := Or.imp (h.letter halike hhead) (h'.letter halike hhead)
  alike _ _ halike := Or.imp (h.alike halike) (h'.alike halike)

namespace Pattern

variable {p q : Pattern} {casing : Casing} {K : Cursor → Prop} {k : Onward}

/-! ### Leading patterns -/

/-- The pattern is steady, and no match begins in front of a blank. -/
def leadsAway (p : Pattern) (casing : Casing) (k : Onward) : Bool :=
  p.isSteady casing false k && (p.front k).refuses

/-- **Is the pattern steady, and does a match that begins with a blank read the last one of a run?** Of
the rest of the match `k` is known. -/
def leads : Pattern → Casing → Onward → Bool
  | .one cls, casing, k => cls.isSteady casing && (k.refuses || !cls.takesBlanks)
  | .seq p q, casing, k => q.isSteady casing false k && p.leads casing (q.front k)
  | .alt p q, casing, k =>
    p.leads casing k && q.leads casing k || (alt p q).leadsAway casing k
  | .group kind p, casing, k => p.leads (kind.casing casing) k
  | p, casing, k => p.leadsAway casing k

theorem leads_one {cls : CharClass} (hcls : cls.isSteady casing = true)
    (hlast : cls.takesBlanks = true → Refuses K) (hK : Respects K) :
    Leads ((one cls).Followed casing K) fun cs => cls.takesBlanks = true ∧ K ⟨false, cs⟩ where
  edge atStart b cs hb := by
    have hblank : cls.accepts casing b = true ↔ cls.takesBlanks = true :=
      ⟨CharClass.takesBlanks_of_accepts hb, fun h => CharClass.accepts_blank_eq_true hcls h hb⟩
    rw [followed_one_cons, hblank]
  last b cs hb h := hlast h.1 false b cs hb h.2
  letter atStart cs ds halike hhead h := by
    cases halike with
    | nil => exact h
    | letter hc hd hcd rest =>
      rw [followed_one_cons, ← CharClass.accepts_eq_of_plainChar_eq hcls hcd]
      exact (followed_one_cons.mp h).imp_right (hK.carry rest)
    | blanks hc =>
      have hletter := hhead _ rfl
      rw [hc] at hletter
      cases hletter
  alike _ _ halike := And.imp_right (hK.carry halike)

theorem leads_of_leadsAway (hp : p.leadsAway casing k = true) (hk : k.Fits K) (hK : Respects K) :
    Leads (p.Followed casing K) fun _ => False := by
  obtain ⟨hsteady, hrefuses⟩ := Bool.and_eq_true_iff.mp hp
  exact leads_of_refuses (respects_followed hsteady hk hK) ((fits_front hk).refuses hrefuses)

theorem exists_leads (hp : p.leads casing k = true) (hk : k.Fits K) (hK : Respects K) :
    ∃ E, Leads (p.Followed casing K) E := by
  -- only the first part of a sequence may begin inside a run; the other parts are steady
  induction p generalizing casing k K with
  | one cls =>
    obtain ⟨hcls, hlast⟩ := Bool.and_eq_true_iff.mp hp
    refine ⟨_, leads_one hcls (fun htakes => hk.refuses ?_) hK⟩
    simpa [htakes] using hlast
  | seq p q ihp _ =>
    obtain ⟨hq, hp⟩ := Bool.and_eq_true_iff.mp hp
    rw [followed_seq]
    exact ihp hp (fits_front hk) (respects_followed hq hk hK)
  | alt p q ihp ihq =>
    rcases Bool.or_eq_true_iff.mp hp with hboth | haway
    · obtain ⟨hp, hq⟩ := Bool.and_eq_true_iff.mp hboth
      obtain ⟨E, hE⟩ := ihp hp hk hK
      obtain ⟨E', hE'⟩ := ihq hq hk hK
      rw [followed_alt]
      exact ⟨_, hE.or hE'⟩
    · exact ⟨_, leads_of_leadsAway haway hk hK⟩
  | group kind p ih =>
    rw [followed_group]
    exact ih hp hk hK
  | _ => exact ⟨_, leads_of_leadsAway hp hk hK⟩

/-! ### Occurrences in variants -/

/-- Behind a whole match there is nothing to match. -/
def atEnd : Onward := ⟨false, true⟩

theorem fits_atEnd : atEnd.Fits fun _ => True := ⟨nofun, fun _ _ _ _ => Iff.rfl⟩

theorem occursFrom_iff_somewhere {atStart : Bool} {cs : List Char} :
    p.occursFrom atStart cs = true ↔ Somewhere (p.Followed .folded fun _ => True) atStart cs := by
  have hmatch : ∀ {cursor},
      p.matchesAt cursor = true ↔ p.Followed .folded (fun _ => True) cursor := by
    intro cursor
    rw [matchesAt_iff]
    simp [Followed]
  induction cs generalizing atStart with
  | nil => exact hmatch
  | cons c cs ih =>
    rw [occursFrom, Bool.or_eq_true, hmatch]
    exact or_congr_right ih

theorem occursIn_of_plain_eq (hp : p.leads .folded atEnd = true) {cs ds : List Char}
    (h : plain cs = plain ds) (hoccurs : p.occursIn cs = true) : p.occursIn ds = true := by
  obtain ⟨E, hleads⟩ := exists_leads hp fits_atEnd fun _ _ _ => id
  unfold occursIn at hoccurs ⊢
  rw [occursFrom_iff_somewhere] at hoccurs ⊢
  exact somewhere_of_alike hleads (alike_of_plain_eq h) hoccurs

/-- **A leading pattern occurs in all texts of one plain form or in none.** -/
theorem occursIn_eq_of_plain_eq (hp : p.leads .folded atEnd = true) {cs ds : List Char}
    (h : plain cs = plain ds) : p.occursIn cs = p.occursIn ds := by
  rw [Bool.eq_iff_iff]
  exact ⟨occursIn_of_plain_eq hp h, occursIn_of_plain_eq hp h.symm⟩

example : (word "no 3").leads .folded atEnd = false := by decide

end Pattern

end Harmony

import Harmony.Text.Blank
import Mathlib.Data.List.DropRight

/-! # Trimmed texts

Blanks at the ends of a text are of no account once it is trimmed, and a text without blanks at its
ends is trimmed already. More generally a run of characters of any kind is cut off a text where a
character of another kind follows (`takeWhile_append_of_endsRun`); so is a run of lines. -/

namespace Harmony.Text

variable {cs run : List Char}

/-! ### Runs of characters -/

section Runs
variable {α : Type} {p : α → Bool} {run run' rest rest' : List α} {c : α}

/-- The text does not go on with a character of the kind. -/
def EndsRun (p : α → Bool) (rest : List α) : Prop := ∀ c ∈ rest.head?, p c = false

theorem endsRun_nil (p : α → Bool) : EndsRun p [] := nofun

theorem endsRun_cons (h : p c = false) : EndsRun p (c :: rest) := by
  intro d hd
  obtain rfl : c = d := Option.some.inj hd
  exact h

/-- **A run of characters** of a kind ends where one of another kind follows. -/
theorem takeWhile_append_of_endsRun (hrun : ∀ c ∈ run, p c = true) (hrest : EndsRun p rest) :
    (run ++ rest).takeWhile p = run := by
  have hnil : rest.takeWhile p = [] := by
    cases rest with
    | nil => rfl
    | cons c rest => exact List.takeWhile_cons_of_neg (by simp [hrest c rfl])
  rw [List.takeWhile_append_of_pos hrun, hnil, List.append_nil]

/-- Behind the run the text goes on as it did. -/
theorem dropWhile_append_of_endsRun (hrun : ∀ c ∈ run, p c = true) (hrest : EndsRun p rest) :
    (run ++ rest).dropWhile p = rest := by
  have hsplit := List.takeWhile_append_dropWhile (p := p) (l := run ++ rest)
  rw [takeWhile_append_of_endsRun hrun hrest] at hsplit
  exact List.append_cancel_left hsplit

/-- Two runs in front of other text are equal if the texts are. -/
theorem append_inj_of_endsRun (hrun : ∀ c ∈ run, p c = true) (hrun' : ∀ c ∈ run', p c = true)
    (hrest : EndsRun p rest) (hrest' : EndsRun p rest') (h : run ++ rest = run' ++ rest') :
    run = run' ∧ rest = rest' := by
  have htake := congrArg (List.takeWhile p) h
  have hdrop := congrArg (List.dropWhile p) h
  rw [takeWhile_append_of_endsRun hrun hrest, takeWhile_append_of_endsRun hrun' hrest'] at htake
  rw [dropWhile_append_of_endsRun hrun hrest, dropWhile_append_of_endsRun hrun' hrest'] at hdrop
  exact ⟨htake, hdrop⟩

end Runs

/-! ### Blanks at the ends -/

theorem trimEnd_eq_rdropWhile (cs : List Char) : trimEnd cs = cs.rdropWhile isBlank := rfl

theorem trimStart_append (hrun : ∀ c ∈ run, isBlank c = true) (cs : List Char) :
    trimStart (run ++ cs) = trimStart cs := List.dropWhile_append_of_pos hrun

theorem trimEnd_append (cs : List Char) (hrun : ∀ c ∈ run, isBlank c = true) :
    trimEnd (cs ++ run) = trimEnd cs := by
  unfold trimEnd
  rw [List.reverse_append, trimStart_append fun c hc => hrun c (List.mem_reverse.mp hc)]

theorem trim_append_left (hrun : ∀ c ∈ run, isBlank c = true) (cs : List Char) :
    trim (run ++ cs) = trim cs := by
  unfold trim
  rw [trimStart_append hrun]

theorem trim_append_right (cs : List Char) (hrun : ∀ c ∈ run, isBlank c = true) :
    trim (cs ++ run) = trim cs := by
  unfold trim
  by_cases h : trimStart cs = []
  · have hall : trimStart (cs ++ run) = [] := by
      unfold trimStart at h ⊢
      rw [List.dropWhile_eq_nil_iff] at h ⊢
      exact List.forall_mem_append.mpr ⟨h, hrun⟩
    rw [h, hall]
  · have happend : trimStart (cs ++ run) = trimStart cs ++ run := by
      unfold trimStart at h ⊢
      rw [List.dropWhile_append, if_neg (by simpa using h)]
    rw [happend, trimEnd_append _ hrun]

/-- What begins with another character still does. -/
theorem trim_cons {c : Char} (hc : isBlank c = false) (cs : List Char) :
    trim (c :: cs) = c :: trimEnd cs := by
  have hstart : trimStart (c :: cs) = c :: cs := List.dropWhile_cons_of_neg (by simp [hc])
  have hlast : [c].dropWhile isBlank = [c] := List.dropWhile_cons_of_neg (by simp [hc])
  unfold trim
  rw [hstart]
  unfold trimEnd trimStart
  rw [List.reverse_cons, List.dropWhile_append, hlast]
  split
  · rename_i hnil
    rw [List.isEmpty_iff.mp hnil]
    rfl
  · rw [List.reverse_append]
    rfl

/-- **A text is trimmed to nothing** if it holds nothing but blanks. -/
theorem trim_eq_nil_iff : trim cs = [] ↔ ∀ c ∈ cs, isBlank c = true := by
  unfold trim
  rw [trimEnd_eq_rdropWhile, List.rdropWhile_eq_nil_iff]
  constructor
  · intro h c hc
    rw [← List.takeWhile_append_dropWhile (p := isBlank) (l := cs), List.mem_append] at hc
    exact hc.elim List.mem_takeWhile_imp (h c)
  · exact fun h c hc => h c ((List.dropWhile_sublist _).subset hc)

theorem trimEnd_eq_self (hlast : ∀ c ∈ cs.getLast?, isBlank c = false) : trimEnd cs = cs := by
  rw [trimEnd_eq_rdropWhile, List.rdropWhile_eq_self_iff]
  intro hne
  simp [hlast _ (List.getLast?_eq_some_getLast hne)]

/-- **A text without blanks at its ends** is not changed. -/
theorem trim_eq_self (hfirst : ∀ c ∈ cs.head?, isBlank c = false)
    (hlast : ∀ c ∈ cs.getLast?, isBlank c = false) : trim cs = cs := by
  have hstart : trimStart cs = cs := by
    cases cs with
    | nil => rfl
    | cons c cs => exact List.dropWhile_cons_of_neg (by simp [hfirst c rfl])
  unfold trim
  rw [hstart, trimEnd_eq_self hlast]

theorem isBlank_of_mem_head?_trimStart {c : Char} (hc : c ∈ (trimStart cs).head?) :
    isBlank c = false := by
  have hhead := List.head?_dropWhile_not isBlank cs
  rw [Option.mem_def] at hc
  unfold trimStart at hc
  rw [hc] at hhead
  simpa using hhead

/-- **A text begins, behind blanks, with a character** if that is the first which is no blank. -/
theorem trimStart_eq_cons_iff {c : Char} {rest : List Char} :
    trimStart cs = c :: rest ↔ isBlank c = false ∧
      ∃ run, (∀ b ∈ run, isBlank b = true) ∧ cs = run ++ c :: rest := by
  constructor
  · intro h
    have hc : c ∈ (trimStart cs).head? := by
      rw [h]
      rfl
    refine ⟨isBlank_of_mem_head?_trimStart hc, cs.takeWhile isBlank,
      fun b hb => List.mem_takeWhile_imp hb, ?_⟩
    rw [← h]
    exact List.takeWhile_append_dropWhile.symm
  · rintro ⟨hc, run, hrun, rfl⟩
    rw [trimStart_append hrun]
    exact List.dropWhile_cons_of_neg (by simp [hc])

/-- Around what is left of a text there were only blanks. -/
theorem exists_eq_append_trim (cs : List Char) :
    ∃ u v, (∀ c ∈ u, isBlank c = true) ∧ (∀ c ∈ v, isBlank c = true) ∧ cs = u ++ trim cs ++ v := by
  refine ⟨cs.takeWhile isBlank, (trimStart cs).rtakeWhile isBlank,
    fun c hc => List.mem_takeWhile_imp hc, fun c hc => List.mem_rtakeWhile_imp hc, ?_⟩
  have hend : trim cs ++ (trimStart cs).rtakeWhile isBlank = trimStart cs :=
    List.rdropWhile_append_rtakeWhile
  rw [List.append_assoc, hend]
  exact List.takeWhile_append_dropWhile.symm

/-- **A trimmed text** is not changed. -/
theorem trim_trim (cs : List Char) : trim (trim cs) = trim cs := by
  have hfirst : ∀ c ∈ (trim cs).head?, isBlank c = false := by
    intro c hc
    -- what is trimmed at its end begins as it did
    obtain ⟨rest, hrest⟩ := List.rdropWhile_prefix isBlank (l := trimStart cs)
    have hhead : (trimStart cs).head? = some c := by
      rw [← hrest, List.head?_append]
      exact Option.or_eq_some_iff.mpr (Or.inl hc)
    exact isBlank_of_mem_head?_trimStart hhead
  have hlast : ∀ c ∈ (trim cs).getLast?, isBlank c = false := by
    intro c hc
    have hne : (trimStart cs).rdropWhile isBlank ≠ [] := by
      intro hnil
      rw [show trim cs = [] from hnil] at hc
      cases hc
    have hgetLast : ((trimStart cs).rdropWhile isBlank).getLast hne = c :=
      Option.some.inj ((List.getLast?_eq_some_getLast hne).symm.trans hc)
    have hnot := List.rdropWhile_last_not isBlank (trimStart cs) hne
    rw [hgetLast] at hnot
    simpa using hnot
  exact trim_eq_self hfirst hlast

end Harmony.Text

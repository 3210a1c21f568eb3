/-! # Maps from degrees

A degree is a position relative to a root: 1 is the root itself, 3 the third and so on. A
`DegreeMap` holds at most one value a degree, in ascending order, so two maps are equal as soon as
they agree at every degree.

* `get?`: the value at a degree, the view through which a map is described.
* `insert`, `erase`: change one degree (`get?_insert`, `get?_erase`).
* `exchange`, `remove`: the same, with the value that was there (`exchange_eq`, `remove_eq`).
* `ofList`: later pairs win (`get?_ofList`). -/

namespace Harmony

/-- A position relative to a root. Degrees need not be contiguous; chords usually skip some. -/
abbrev Degree := Fin 256

/-- A numeral stands for the degree that it counts. -/
instance Degree.instOfNat (n : Nat) : OfNat Degree n :=
  ⟨⟨n % 256, Nat.mod_lt n (Nat.succ_pos 255)⟩⟩

/-- The degree at an index of a list that starts with the root. -/
def Degree.ofIndex (i : Nat) : Degree := Fin.ofNat 256 (i + 1)

theorem Degree.val_ofIndex {i : Nat} (h : i < 255) : (Degree.ofIndex i).val = i + 1 :=
  Nat.mod_eq_of_lt (by omega)

/-- A map from degrees to values, in ascending order of the degrees. -/
structure DegreeMap (α : Type) where
  entries : List (Degree × α)
  ascending : entries.Pairwise fun a b => a.1 < b.1
deriving Repr, DecidableEq

namespace DegreeMap

variable {α β : Type}

/-- The map without entries. -/
def empty : DegreeMap α := ⟨[], .nil⟩

instance : Inhabited (DegreeMap α) := ⟨empty⟩

/-- The value at a degree. -/
def get? (m : DegreeMap α) (d : Degree) : Option α := m.entries.lookup d

/-- Is there a value at the degree? -/
def contains (m : DegreeMap α) (d : Degree) : Bool := (m.get? d).isSome

/-- The number of entries. -/
def size (m : DegreeMap α) : Nat := m.entries.length

/-- Are there no entries? -/
def isEmpty (m : DegreeMap α) : Bool := m.entries.isEmpty

/-- The degrees, in ascending order. -/
def degrees (m : DegreeMap α) : List Degree := m.entries.map (·.1)

/-- The values, in ascending order of their degrees. -/
def values (m : DegreeMap α) : List α := m.entries.map (·.2)

/-! ### Changing one degree -/

/-- Puts a value at a degree in an ascending list, in place of the value there. -/
def insertEntry (d : Degree) (a : α) : List (Degree × α) → List (Degree × α)
  | [] => [(d, a)]
  | (e, b) :: rest =>
    if d < e then (d, a) :: (e, b) :: rest
    else if d = e then (d, a) :: rest
    else (e, b) :: insertEntry d a rest

theorem mem_insertEntry {d : Degree} {a : α} {x : Degree × α} {l : List (Degree × α)}
    (h : x ∈ insertEntry d a l) : x = (d, a) ∨ x ∈ l := by
  induction l with
  | nil => simpa [insertEntry] using h
  | cons y rest ih =>
    obtain ⟨e, b⟩ := y
    unfold insertEntry at h
    split at h
    · simpa using h
    · split at h
      · rcases List.mem_cons.mp h with h | h
        · exact Or.inl h
        · exact Or.inr (List.mem_cons_of_mem _ h)
      · rcases List.mem_cons.mp h with h | h
        · exact Or.inr (h ▸ List.mem_cons_self)
        · rcases ih h with h | h
          · exact Or.inl h
          · exact Or.inr (List.mem_cons_of_mem _ h)

theorem pairwise_insertEntry (d : Degree) (a : α) {l : List (Degree × α)}
    (h : l.Pairwise fun a b => a.1 < b.1) :
    (insertEntry d a l).Pairwise fun a b => a.1 < b.1 := by
  induction l with
  | nil => simp [insertEntry]
  | cons y rest ih =>
    obtain ⟨e, b⟩ := y
    obtain ⟨hlt, hrest⟩ := List.pairwise_cons.mp h
    unfold insertEntry
    split
    · rename_i hde
      refine List.pairwise_cons.mpr ⟨fun x hx => ?_, h⟩
      rcases List.mem_cons.mp hx with rfl | hx
      · exact hde
      · exact Fin.lt_trans hde (hlt x hx)
    · rename_i hde
      split
      · rename_i heq
        exact List.pairwise_cons.mpr ⟨fun x hx => heq ▸ hlt x hx, hrest⟩
      · rename_i hne
        refine List.pairwise_cons.mpr ⟨fun x hx => ?_, ih hrest⟩
        rcases mem_insertEntry hx with rfl | hx
        · exact Nat.lt_of_le_of_ne (Nat.not_lt.mp hde) fun heq => hne (Fin.ext heq.symm)
        · exact hlt x hx

/-- Sets the value at a degree. -/
def insert (m : DegreeMap α) (d : Degree) (a : α) : DegreeMap α :=
  ⟨insertEntry d a m.entries, pairwise_insertEntry d a m.ascending⟩

/-- Removes the value at a degree. -/
def erase (m : DegreeMap α) (d : Degree) : DegreeMap α :=
  ⟨m.entries.filter fun x => x.1 != d, m.ascending.filter _⟩

/-- Puts a value at a degree in an ascending list, and gives the value that stood there. -/
def exchangeEntry (d : Degree) (a : α) : List (Degree × α) → Option α × List (Degree × α)
  | [] => (none, [(d, a)])
  | (e, b) :: rest =>
    if d < e then (none, (d, a) :: (e, b) :: rest)
    else if d = e then (some b, (d, a) :: rest)
    else
      let (previous, after) := exchangeEntry d a rest
      (previous, (e, b) :: after)

theorem snd_exchangeEntry (d : Degree) (a : α) (l : List (Degree × α)) :
    (exchangeEntry d a l).2 = insertEntry d a l := by
  induction l with
  | nil => rfl
  | cons y rest ih =>
    unfold exchangeEntry insertEntry
    split
    · rfl
    · split
      · rfl
      · simp only [ih]

/-- Takes the value at a degree out of a list with one value a degree. -/
def removeEntry (d : Degree) : List (Degree × α) → Option α × List (Degree × α)
  | [] => (none, [])
  | (e, b) :: rest =>
    if d = e then (some b, rest)
    else
      let (previous, after) := removeEntry d rest
      (previous, (e, b) :: after)

theorem sublist_removeEntry (d : Degree) (l : List (Degree × α)) : (removeEntry d l).2.Sublist l := by
  induction l with
  | nil => exact .slnil
  | cons y rest ih =>
    unfold removeEntry
    split
    · exact List.sublist_cons_self _ _
    · exact ih.cons_cons _

/-- Sets the value at a degree, and gives the value that it replaces. -/
def exchange (m : DegreeMap α) (d : Degree) (a : α) : Option α × DegreeMap α :=
  let result := exchangeEntry d a m.entries
  (result.1, ⟨result.2, snd_exchangeEntry d a m.entries ▸ pairwise_insertEntry d a m.ascending⟩)

/-- Removes the value at a degree, and gives it. -/
def remove (m : DegreeMap α) (d : Degree) : Option α × DegreeMap α :=
  let result := removeEntry d m.entries
  (result.1, ⟨result.2, m.ascending.sublist (sublist_removeEntry d m.entries)⟩)

/-- Every value changed by a function. -/
def map (f : α → β) (m : DegreeMap α) : DegreeMap β :=
  ⟨m.entries.map fun x => (x.1, f x.2), List.pairwise_map.mpr m.ascending⟩

/-- The map of a list of pairs. Of two pairs with one degree the later wins. -/
def ofList (pairs : List (Degree × α)) : DegreeMap α :=
  pairs.foldl (fun m x => m.insert x.1 x.2) empty

/-! ### The view through `get?` -/

@[simp] theorem get?_empty (d : Degree) : (empty : DegreeMap α).get? d = none := rfl

theorem lookup_insertEntry (d e : Degree) (a : α) (l : List (Degree × α)) :
    (insertEntry d a l).lookup e = if e = d then some a else l.lookup e := by
  induction l with
  | nil =>
    by_cases h : e = d
    · simp [insertEntry, h]
    · have hb : (e == d) = false := by simp [h]
      simp [insertEntry, List.lookup_cons, h, hb]
  | cons y rest ih =>
    obtain ⟨f, b⟩ := y
    unfold insertEntry
    by_cases h : e = d
    · subst h
      split
      · simp
      · split
        · simp
        · rename_i hne
          have hb : (e == f) = false := by simpa using hne
          simp [List.lookup_cons, hb, ih]
    · have hb : (e == d) = false := by simp [h]
      split
      · simp [List.lookup_cons, hb]
      · split
        · rename_i heq
          subst heq
          simp [List.lookup_cons, hb]
        · simp [List.lookup_cons, ih, h]

/-- An insertion changes the view at its degree only. -/
@[simp] theorem get?_insert (m : DegreeMap α) (d e : Degree) (a : α) :
    (m.insert d a).get? e = if e = d then some a else m.get? e :=
  lookup_insertEntry d e a m.entries

theorem lookup_filter_ne (d e : Degree) (l : List (Degree × α)) :
    (l.filter fun x => x.1 != d).lookup e = if e = d then none else l.lookup e := by
  induction l with
  | nil => simp
  | cons y rest ih =>
    obtain ⟨f, b⟩ := y
    by_cases hf : f = d
    · subst hf
      have : ((f, b) :: rest).filter (fun x => x.1 != f) = rest.filter fun x => x.1 != f := by simp
      rw [this, ih]
      by_cases he : e = f
      · simp [he]
      · have hb : (e == f) = false := by simp [he]
        simp [he, List.lookup_cons, hb]
    · have : ((f, b) :: rest).filter (fun x => x.1 != d) =
          (f, b) :: rest.filter fun x => x.1 != d := by simp [hf]
      rw [this]
      by_cases he : e = f
      · subst he
        simp [hf]
      · have hb : (e == f) = false := by simp [he]
        simp [List.lookup_cons, hb, ih]

/-- An erasure empties the view at its degree only. -/
@[simp] theorem get?_erase (m : DegreeMap α) (d e : Degree) :
    (m.erase d).get? e = if e = d then none else m.get? e :=
  lookup_filter_ne d e m.entries

@[simp] theorem get?_map (f : α → β) (m : DegreeMap α) (d : Degree) :
    (m.map f).get? d = (m.get? d).map f := by
  unfold map get?
  simp only
  induction m.entries with
  | nil => rfl
  | cons y rest ih =>
    obtain ⟨e, b⟩ := y
    cases h : d == e <;> simp [List.lookup_cons, h, ih]

/-- The degrees are those with a value. -/
theorem mem_degrees_iff {m : DegreeMap α} {d : Degree} : d ∈ m.degrees ↔ m.contains d = true := by
  unfold degrees contains get?
  rw [List.lookup_isSome_iff, List.mem_map]
  constructor
  · rintro ⟨entry, hentry, rfl⟩
    exact ⟨entry, hentry, BEq.rfl⟩
  · rintro ⟨entry, hentry, hd⟩
    exact ⟨entry, hentry, (eq_of_beq hd).symm⟩

theorem isEmpty_eq_false_of_contains {m : DegreeMap α} {d : Degree} (h : m.contains d = true) :
    m.isEmpty = false := by
  rw [← mem_degrees_iff] at h
  obtain ⟨entry, hentry, -⟩ := List.mem_map.mp h
  exact List.isEmpty_eq_false_iff_exists_mem.mpr ⟨entry, hentry⟩

@[simp] theorem degrees_map (f : α → β) (m : DegreeMap α) : (m.map f).degrees = m.degrees := by
  simp [degrees, map, Function.comp_def]

theorem get?_foldl_insert (pairs : List (Degree × α)) (m : DegreeMap α) (d : Degree) :
    (pairs.foldl (fun m x => m.insert x.1 x.2) m).get? d =
      (pairs.reverse.lookup d).or (m.get? d) := by
  induction pairs generalizing m with
  | nil => simp
  | cons x rest ih =>
    obtain ⟨e, a⟩ := x
    rw [List.foldl_cons, ih, get?_insert, List.reverse_cons, List.lookup_append, Option.or_assoc]
    by_cases h : d = e
    · simp [h]
    · have hb : (d == e) = false := by simp [h]
      simp [List.lookup_cons, h, hb]

/-- The map of a list of pairs holds, at every degree, the value of the last pair with it. -/
@[simp] theorem get?_ofList (pairs : List (Degree × α)) (d : Degree) :
    (ofList pairs).get? d = pairs.reverse.lookup d := by
  simp [ofList, get?_foldl_insert]

theorem insertEntry_of_forall_lt {d : Degree} {l : List (Degree × α)} (h : ∀ x ∈ l, x.1 < d) (a : α) :
    insertEntry d a l = l ++ [(d, a)] := by
  induction l with
  | nil => rfl
  | cons y rest ih =>
    obtain ⟨e, b⟩ := y
    obtain ⟨hlt, hrest⟩ := List.forall_mem_cons.mp h
    have hle : ¬ d < e := Fin.not_lt.mpr (Fin.le_of_lt hlt)
    have hne : d ≠ e := fun heq => Fin.lt_irrefl e (heq ▸ hlt)
    rw [insertEntry, if_neg hle, if_neg hne, ih hrest, List.cons_append]

theorem entries_foldl_insert {pairs : List (Degree × α)} {m : DegreeMap α}
    (h : (m.entries ++ pairs).Pairwise fun a b => a.1 < b.1) :
    (pairs.foldl (fun m x => m.insert x.1 x.2) m).entries = m.entries ++ pairs := by
  induction pairs generalizing m with
  | nil => simp
  | cons x rest ih =>
    have hlast : ∀ y ∈ m.entries, y.1 < x.1 := fun y hy =>
      (List.pairwise_append.mp h).2.2 y hy x List.mem_cons_self
    have hinsert : (m.insert x.1 x.2).entries = m.entries ++ [x] := insertEntry_of_forall_lt hlast x.2
    have happend : (m.insert x.1 x.2).entries ++ rest = m.entries ++ x :: rest := by
      rw [hinsert, List.append_assoc, List.singleton_append]
    rw [List.foldl_cons, ih (happend ▸ h), happend]

/-- The map of an ascending list of pairs has these pairs as its entries. -/
theorem entries_ofList {pairs : List (Degree × α)} (h : pairs.Pairwise fun a b => a.1 < b.1) :
    (ofList pairs).entries = pairs := entries_foldl_insert h

theorem lookup_eq_none_of_lt {d : Degree} {l : List (Degree × α)} (h : ∀ x ∈ l, d < x.1) :
    l.lookup d = none := by
  induction l with
  | nil => rfl
  | cons y rest ih =>
    obtain ⟨e, b⟩ := y
    have hlt := h (e, b) List.mem_cons_self
    have hb : (d == e) = false := by
      simp only [beq_eq_false_iff_ne, ne_eq]
      intro heq
      exact absurd (heq ▸ hlt : e < e) (Fin.lt_irrefl e)
    simp only [List.lookup_cons, hb]
    exact ih fun x hx => h x (List.mem_cons_of_mem _ hx)

theorem eq_of_lookup {l l' : List (Degree × α)} (hl : l.Pairwise fun a b => a.1 < b.1)
    (hl' : l'.Pairwise fun a b => a.1 < b.1) (h : ∀ d, l.lookup d = l'.lookup d) : l = l' := by
  induction l generalizing l' with
  | nil =>
    cases l' with
    | nil => rfl
    | cons y rest => exact absurd (h y.1).symm (by simp)
  | cons x rest ih =>
    cases l' with
    | nil => exact absurd (h x.1) (by simp)
    | cons y rest' =>
      obtain ⟨d, a⟩ := x
      obtain ⟨e, b⟩ := y
      obtain ⟨hx, hr⟩ := List.pairwise_cons.mp hl
      obtain ⟨hy, hr'⟩ := List.pairwise_cons.mp hl'
      have hde : d = e := by
        have h1 := h d
        have h2 := h e
        rcases Nat.lt_trichotomy d.val e.val with hlt | heq | hlt
        · have hnone : ((e, b) :: rest').lookup d = none :=
            lookup_eq_none_of_lt fun z hz => by
              rcases List.mem_cons.mp hz with rfl | hz
              · exact hlt
              · exact Fin.lt_trans (Fin.lt_def.mpr hlt) (hy z hz)
          rw [hnone] at h1
          simp at h1
        · exact Fin.ext heq
        · have hnone : ((d, a) :: rest).lookup e = none :=
            lookup_eq_none_of_lt fun z hz => by
              rcases List.mem_cons.mp hz with rfl | hz
              · exact hlt
              · exact Fin.lt_trans (Fin.lt_def.mpr hlt) (hx z hz)
          rw [hnone] at h2
          simp at h2
      subst hde
      have hab : a = b := by simpa [List.lookup_cons] using h d
      subst hab
      refine congrArg _ (ih hr hr' fun f => ?_)
      by_cases hf : f = d
      · subst hf
        rw [lookup_eq_none_of_lt hx, lookup_eq_none_of_lt hy]
      · have hb : (f == d) = false := by simp [hf]
        simpa [List.lookup_cons, hb] using h f

/-- **Two maps that agree at every degree are equal.** -/
theorem eq_of_get? {m m' : DegreeMap α} (h : ∀ d, m.get? d = m'.get? d) : m = m' := by
  cases m; cases m'
  simp only [mk.injEq]
  exact eq_of_lookup ‹_› ‹_› h

/-- A map is that of its entries. -/
theorem ofList_entries (m : DegreeMap α) : ofList m.entries = m := by
  refine eq_of_get? fun d => ?_
  rw [get?, entries_ofList m.ascending]
  rfl

/-! ### Changes that give the old value -/

theorem fst_exchangeEntry (d : Degree) (a : α) {l : List (Degree × α)}
    (h : l.Pairwise fun a b => a.1 < b.1) : (exchangeEntry d a l).1 = l.lookup d := by
  induction l with
  | nil => rfl
  | cons y rest ih =>
    obtain ⟨e, b⟩ := y
    obtain ⟨hlt, hrest⟩ := List.pairwise_cons.mp h
    unfold exchangeEntry
    split
    · rename_i hde
      refine (lookup_eq_none_of_lt fun x hx => ?_).symm
      rcases List.mem_cons.mp hx with rfl | hx
      · exact hde
      · exact Fin.lt_trans hde (hlt x hx)
    · split
      · rename_i heq
        simp [heq]
      · rename_i hne
        have hb : (d == e) = false := by simp [hne]
        simp only [List.lookup_cons, hb]
        exact ih hrest

/-- **An exchange is an insertion** that gives the value at its degree. -/
theorem exchange_eq (m : DegreeMap α) (d : Degree) (a : α) :
    m.exchange d a = (m.get? d, m.insert d a) := by
  simp only [exchange, get?, insert, fst_exchangeEntry d a m.ascending, snd_exchangeEntry]

theorem removeEntry_eq (d : Degree) {l : List (Degree × α)} (h : l.Pairwise fun a b => a.1 < b.1) :
    removeEntry d l = (l.lookup d, l.filter fun x => x.1 != d) := by
  induction l with
  | nil => rfl
  | cons y rest ih =>
    obtain ⟨e, b⟩ := y
    obtain ⟨hlt, hrest⟩ := List.pairwise_cons.mp h
    unfold removeEntry
    split
    · rename_i heq
      subst heq
      have hall : ∀ x ∈ rest, (x.1 != d) = true := fun x hx =>
        bne_iff_ne.mpr fun hx' => Fin.lt_irrefl d (hx' ▸ hlt x hx)
      simp [List.filter_eq_self.mpr hall]
    · rename_i hne
      have hb : (d == e) = false := by simp [hne]
      have hb' : (e != d) = true := bne_iff_ne.mpr fun heq => hne heq.symm
      simp [List.lookup_cons, hb, hb', ih hrest]

/-- **A removal gives the value at its degree.** -/
theorem remove_eq (m : DegreeMap α) (d : Degree) : m.remove d = (m.get? d, m.erase d) := by
  simp only [remove, get?, erase, removeEntry_eq d m.ascending]

end DegreeMap

end Harmony

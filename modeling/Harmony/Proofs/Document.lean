import Harmony.Document
import Harmony.Proofs.Text.Trim
import Harmony.Proofs.Yaml

/-! # Documents in YAML

A document whose texts are printable and whose labels are names or degrees is written in lines of
printable characters, and it is told from its text: no two such documents are written alike. The first
line of a document tells its shape. What belongs to a value stands to the right of its label or begins
with a blank or a hyphen below it, and so it ends where the next label begins.

* `IsPlain`: the documents that can be written.
* `isPrintable_of_mem_lines`: they are written with printable characters.
* `eq_of_lines_eq`: they are told from their lines.
* `splitOn_toYaml`, `eq_of_toYaml_eq`: the lines are told from the text, and so the document. -/

namespace Harmony

open Yaml

/-! ### Labels -/

namespace Label

/-- A name of letters and digits that does not begin with a digit, or a degree. -/
def IsPlain : Label → Prop
  | .name text => text.toList.head?.any (!·.isDigit) = true ∧ text.toList.all Char.isAlphanum = true
  | .degree _ => True

instance : DecidablePred IsPlain
  | .name _ => inferInstanceAs (Decidable (_ ∧ _))
  | .degree _ => inferInstanceAs (Decidable True)

variable {label other : Label}

theorem isAlphanum_of_mem_chars (h : label.IsPlain) : ∀ c ∈ label.chars, c.isAlphanum = true := by
  cases label with
  | name text => exact List.all_eq_true.mp h.2
  | degree d =>
    intro c hc
    have hdigit := Nat.isDigit_of_mem_toDigits (by decide) (by decide) hc
    unfold Char.isAlphanum
    rw [hdigit, Bool.or_true]

theorem exists_chars_eq_cons (h : label.IsPlain) :
    ∃ c cs, label.chars = c :: cs ∧ c.isAlphanum = true := by
  obtain ⟨c, cs, hchars⟩ : ∃ c cs, label.chars = c :: cs := by
    refine List.exists_cons_of_ne_nil ?_
    cases label with
    | name text =>
      intro hnil
      have hhead := h.1
      rw [show text.toList = [] from hnil] at hhead
      cases hhead
    | degree d => exact Nat.toDigits_ne_nil
  exact ⟨c, cs, hchars, isAlphanum_of_mem_chars h c (hchars ▸ List.mem_cons_self)⟩

/-- A name is no degree. -/
theorem toList_ne_toDigits {text : String} (h : (Label.name text).IsPlain) (n : Nat) :
    text.toList ≠ Nat.toDigits 10 n := by
  intro hdigits
  have hhead := h.1
  rw [hdigits] at hhead
  obtain ⟨c, hc, hdigit⟩ := (Option.any_eq_true _ _).mp hhead
  have hdigit' := Nat.isDigit_of_mem_toDigits (by decide) (by decide) (List.mem_of_mem_head? hc)
  simp [hdigit'] at hdigit

/-- **A label** is told from its characters. -/
theorem eq_of_chars_eq (h : label.IsPlain) (hother : other.IsPlain)
    (hchars : label.chars = other.chars) : label = other := by
  cases label with
  | name text =>
    cases other with
    | name text' => exact congrArg Label.name (String.toList_inj.mp hchars)
    | degree d => exact absurd hchars (toList_ne_toDigits h d.val)
  | degree d =>
    cases other with
    | name text' => exact absurd hchars.symm (toList_ne_toDigits hother d.val)
    | degree e =>
      have hdigits : Nat.toDigits 10 d.val = Nat.toDigits 10 e.val := hchars
      have hread := congrArg Decimal.readNat? hdigits
      rw [Decimal.readNat?_toDigits, Decimal.readNat?_toDigits] at hread
      exact congrArg Label.degree (Fin.ext (Option.some.inj hread))

end Label

theorem Yaml.isPrintable_of_isAlphanum {c : Char} (h : c.isAlphanum = true) : isPrintable c = true := by
  delta Char.isAlphanum Char.isAlpha Char.isUpper Char.isLower Char.isDigit at h
  simp only [Bool.or_eq_true, Bool.and_eq_true, decide_eq_true_eq] at h
  change ((65 ≤ c.toNat ∧ c.toNat ≤ 90) ∨ (97 ≤ c.toNat ∧ c.toNat ≤ 122)) ∨
    (48 ≤ c.toNat ∧ c.toNat ≤ 57) at h
  simp only [isPrintable, Bool.or_eq_true, Bool.and_eq_true, decide_eq_true_eq]
  omega

theorem ne_of_isAlphanum {c d : Char} (hc : c.isAlphanum = true) (hd : d.isAlphanum = false) :
    c ≠ d := by
  rintro rfl
  exact Bool.false_ne_true (hd.symm.trans hc)

namespace Document

/-! ### Plain documents -/

/-- The document has printable texts and plain labels. -/
inductive IsPlain : Document → Prop
  | text {content : String} (h : Printable content) : IsPlain (.text content)
  | list {items : List Document} (h : ∀ item ∈ items, item.IsPlain) : IsPlain (.list items)
  | record {fields : List (Label × Document)} (hlabels : ∀ entry ∈ fields, entry.1.IsPlain)
      (hvalues : ∀ entry ∈ fields, entry.2.IsPlain) : IsPlain (.record fields)

variable {document other : Document} {lines lines' rest rest' : List (List Char)}

/-! ### The lines of a value -/

theorem hang_ne_nil (front : List Char) (h : lines ≠ []) : hang front lines ≠ [] := by
  cases lines with
  | nil => exact absurd rfl h
  | cons line lines => exact List.cons_ne_nil _ _

/-- What is hung is found again. -/
theorem map_drop_hang (front : List Char) (lines : List (List Char)) :
    (hang front lines).map (·.drop front.length) = lines := by
  cases lines with
  | nil => rfl
  | cons line lines =>
    have hblanks : ∀ line : List Char,
        (List.replicate front.length ' ' ++ line).drop front.length = line :=
      fun line => List.drop_left' List.length_replicate
    simp [hang, hblanks, Function.comp_def]

/-- Does the line begin with a blank? -/
def isIndented (line : List Char) : Bool := line.head? == some ' '

/-- Does the line begin with a blank or a hyphen? -/
def isNested (line : List Char) : Bool := line.head? == some ' ' || line.head? == some '-'

theorem exists_hang_eq_cons (h : lines ≠ []) : ∃ first below, hang ['-', ' '] lines = first :: below ∧
    first.head? = some '-' ∧ ∀ line ∈ below, isIndented line = true := by
  obtain ⟨line, lines, rfl⟩ := List.exists_cons_of_ne_nil h
  refine ⟨_, _, rfl, rfl, fun line hline => ?_⟩
  obtain ⟨line, -, rfl⟩ := List.mem_map.mp hline
  rfl

theorem isNested_of_mem_hang {line : List Char} (h : line ∈ hang ['-', ' '] lines) :
    isNested line = true := by
  cases lines with
  | nil => cases h
  | cons first lines =>
    rcases List.mem_cons.mp h with rfl | h
    · rfl
    · obtain ⟨line, -, rfl⟩ := List.mem_map.mp h
      rfl

theorem isNested_of_mem_itemLines (items : List Document) :
    ∀ line ∈ itemLines items, isNested line = true := by
  induction items with
  | nil => nofun
  | cons item items ih => exact List.forall_mem_append.mpr ⟨fun _ => isNested_of_mem_hang, ih⟩

theorem isNested_of_mem_indent {line : List Char} (h : line ∈ indent lines) : isNested line = true := by
  obtain ⟨line, -, rfl⟩ := List.mem_map.mp h
  rfl

theorem lines_ne_nil : ∀ document : Document, document.lines ≠ []
  | .text _ | .list [] | .record [] => List.cons_ne_nil _ _
  | .list (item :: _) => List.append_ne_nil_of_left_ne_nil (hang_ne_nil _ (lines_ne_nil item)) _
  | .record ((label, value) :: _) => by
    refine List.append_ne_nil_of_left_ne_nil ?_ _
    unfold fieldLines
    split <;> exact List.cons_ne_nil _ _

/-- **An item** ends where the next hyphen stands. -/
theorem hang_append_inj (hlines : lines ≠ []) (hlines' : lines' ≠ [])
    (hrest : Text.EndsRun isIndented rest) (hrest' : Text.EndsRun isIndented rest')
    (h : hang ['-', ' '] lines ++ rest = hang ['-', ' '] lines' ++ rest') :
    lines = lines' ∧ rest = rest' := by
  obtain ⟨first, below, hfirst, -, hbelow⟩ := exists_hang_eq_cons hlines
  obtain ⟨first', below', hfirst', -, hbelow'⟩ := exists_hang_eq_cons hlines'
  rw [hfirst, hfirst', List.cons_append, List.cons_append] at h
  obtain ⟨rfl, hbehind⟩ := List.cons.inj h
  obtain ⟨rfl, rfl⟩ := Text.append_inj_of_endsRun hbelow hbelow' hrest hrest' hbehind
  have hhang : hang ['-', ' '] lines = hang ['-', ' '] lines' := hfirst.trans hfirst'.symm
  refine ⟨?_, rfl⟩
  rw [← map_drop_hang ['-', ' '] lines, hhang, map_drop_hang]

theorem endsRun_itemLines (items : List Document) : Text.EndsRun isIndented (itemLines items) := by
  cases items with
  | nil => exact Text.endsRun_nil _
  | cons item items =>
    obtain ⟨first, below, hlines, hhyphen, -⟩ := exists_hang_eq_cons (lines_ne_nil item)
    rw [itemLines, hlines]
    exact Text.endsRun_cons (by simp [isIndented, hhyphen])

/-! ### The lines of a field -/

/-- The lines of the value of a field, of which `front` stands behind the colon and `below` under the
label. -/
def valueLines (front : List Char) (below : List (List Char)) : List (List Char) :=
  if front ≠ [] then [front.tail]
  else if below.head?.any isIndented then below.map (·.drop 2)
  else below

/-- The lines of a field consist of its label and a colon with `front` behind them, and of the lines
`below`. The lines of the value are found again. -/
structure Stands (label : List Char) (value : Document) (front : List Char)
    (below : List (List Char)) : Prop where
  lines : fieldLines label value value.lines = (label ++ ':' :: front) :: below
  blank : ∀ c ∈ front.head?, c = ' '
  nested : ∀ line ∈ below, isNested line = true
  value : valueLines front below = value.lines

/-- A value of one line stands behind the label. -/
theorem stands_inline {label line : List Char} {value : Document} (hline : value.lines = [line])
    (hfield : fieldLines label value value.lines = hang (label ++ [':', ' ']) value.lines) :
    Stands label value (' ' :: line) [] where
  lines := by
    rw [hfield, hline]
    simp [hang]
  blank := by
    rintro c ⟨⟩
    rfl
  nested := nofun
  value := hline.symm

/-- The items of a list stand below the label. -/
theorem stands_items (label : List Char) (item : Document) (items : List Document) :
    Stands label (.list (item :: items)) [] (itemLines (item :: items)) where
  lines := rfl
  blank := nofun
  nested := isNested_of_mem_itemLines (item :: items)
  value := by
    have hhyphen : (itemLines (item :: items)).head?.any isIndented = false := by
      refine Bool.eq_false_iff.mpr fun hany => ?_
      obtain ⟨line, hline, hindented⟩ := (Option.any_eq_true _ _).mp hany
      exact Bool.false_ne_true ((endsRun_itemLines (item :: items) line hline).symm.trans hindented)
    unfold valueLines
    rw [if_neg (not_not.mpr rfl), hhyphen, if_neg Bool.false_ne_true]
    rfl

/-- The fields of a record stand below the label and to the right. -/
theorem stands_fields (label : List Char) (entry : Label × Document)
    (entries : List (Label × Document)) :
    Stands label (.record (entry :: entries)) [] (indent (record (entry :: entries)).lines) where
  lines := rfl
  blank := nofun
  nested := fun _ => isNested_of_mem_indent
  value := by
    obtain ⟨line, below, hlines⟩ :=
      List.exists_cons_of_ne_nil (lines_ne_nil (.record (entry :: entries)))
    rw [hlines]
    simp [valueLines, indent, isIndented, Function.comp_def]

theorem exists_stands (label : List Char) (value : Document) :
    ∃ front below, Stands label value front below := by
  rcases value with content | (_ | ⟨item, items⟩) | (_ | ⟨entry, entries⟩)
  · exact ⟨_, _, stands_inline rfl rfl⟩
  · exact ⟨_, _, stands_inline rfl rfl⟩
  · exact ⟨_, _, stands_items label item items⟩
  · exact ⟨_, _, stands_inline rfl rfl⟩
  · exact ⟨_, _, stands_fields label entry entries⟩

/-- What follows the lines of a value begins neither with a blank nor with a hyphen. -/
theorem endsRun_recordLines {fields : List (Label × Document)} (h : ∀ entry ∈ fields, entry.1.IsPlain) :
    Text.EndsRun isNested (recordLines fields) := by
  cases fields with
  | nil => exact Text.endsRun_nil _
  | cons entry fields =>
    obtain ⟨c, cs, hchars, hc⟩ := Label.exists_chars_eq_cons (h entry List.mem_cons_self)
    obtain ⟨front, below, hstands⟩ := exists_stands entry.1.chars entry.2
    rw [recordLines, hstands.lines, hchars]
    refine Text.endsRun_cons ?_
    simp [isNested, ne_of_isAlphanum hc (d := ' ') rfl, ne_of_isAlphanum hc (d := '-') rfl]

/-- **A field** ends where the next label stands. -/
theorem fieldLines_append_inj {label label' : Label} {value value' : Document} (hlabel : label.IsPlain)
    (hlabel' : label'.IsPlain) (hrest : Text.EndsRun isNested rest)
    (hrest' : Text.EndsRun isNested rest')
    (h : fieldLines label.chars value value.lines ++ rest =
      fieldLines label'.chars value' value'.lines ++ rest') :
    label = label' ∧ value.lines = value'.lines ∧ rest = rest' := by
  obtain ⟨front, below, hstands⟩ := exists_stands label.chars value
  obtain ⟨front', below', hstands'⟩ := exists_stands label'.chars value'
  rw [hstands.lines, hstands'.lines, List.cons_append, List.cons_append] at h
  obtain ⟨hfirst, hbehind⟩ := List.cons.inj h
  obtain ⟨rfl, hrest⟩ :=
    Text.append_inj_of_endsRun hstands.nested hstands'.nested hrest hrest' hbehind
  -- the label ends at the colon
  obtain ⟨hchars, hfront⟩ := Text.append_inj_of_endsRun (Label.isAlphanum_of_mem_chars hlabel)
    (Label.isAlphanum_of_mem_chars hlabel') (Text.endsRun_cons rfl) (Text.endsRun_cons rfl) hfirst
  obtain ⟨-, rfl⟩ := List.cons.inj hfront
  exact ⟨Label.eq_of_chars_eq hlabel hlabel' hchars, hstands.value.symm.trans hstands'.value, hrest⟩

/-! ### The shape of a document -/

/-- The shapes of documents. -/
inductive Shape where
  | text
  | noItems
  | items
  | noFields
  | fields
deriving DecidableEq

/-- The shape of a document. -/
def shape : Document → Shape
  | .text _ => .text
  | .list [] => .noItems
  | .list (_ :: _) => .items
  | .record [] => .noFields
  | .record (_ :: _) => .fields

/-- The shape that a first line tells. -/
def lineShape (line : List Char) : Shape :=
  if isMarkup line = false then .text
  else if line.head? = some '[' then .noItems
  else if line.head? = some '-' then .items
  else if line.head? = some '\x7b' then .noFields
  else .fields

/-- **The first line** tells the shape of a document. -/
theorem lineShape_of_mem_head? (h : document.IsPlain) {line : List Char}
    (hline : line ∈ document.lines.head?) : lineShape line = document.shape := by
  rcases document with content | (_ | ⟨item, items⟩) | (_ | ⟨⟨label, value⟩, fields⟩)
  case text =>
    obtain rfl : scalar content.toList = line := Option.some.inj hline
    exact if_pos (isMarkup_scalar _)
  case list.nil =>
    obtain rfl : "[]".toList = line := Option.some.inj hline
    decide
  case list.cons =>
    obtain ⟨first, below, hfirst⟩ := List.exists_cons_of_ne_nil (lines_ne_nil item)
    rw [lines, hfirst] at hline
    obtain rfl : '-' :: ' ' :: first = line := Option.some.inj hline
    rfl
  case record.nil =>
    obtain rfl : "\x7b\x7d".toList = line := Option.some.inj hline
    decide
  case record.cons =>
    cases h with
    | record hlabels _ =>
      obtain ⟨c, cs, hchars, hc⟩ := Label.exists_chars_eq_cons (hlabels _ List.mem_cons_self)
      obtain ⟨front, below, hstands⟩ := exists_stands label.chars value
      have hinner := hasInnerIndicator_append hstands.blank label.chars
      rw [lines, hstands.lines, hchars] at hline
      rw [hchars, List.cons_append] at hinner
      obtain rfl : c :: (cs ++ ':' :: front) = line := Option.some.inj hline
      have hmarkup : isMarkup (c :: (cs ++ ':' :: front)) = true := by
        simp [isMarkup, hasIndicator, hinner, ne_of_isAlphanum hc (d := '\'') rfl]
      unfold lineShape
      rw [hmarkup]
      simp [ne_of_isAlphanum hc (d := '[') rfl, ne_of_isAlphanum hc (d := '-') rfl,
        ne_of_isAlphanum hc (d := '\x7b') rfl, shape]

/-- Two documents of one shape. -/
inductive SameShape : Document → Document → Prop
  | text {content content' : String} : SameShape (.text content) (.text content')
  | noItems : SameShape (.list []) (.list [])
  | items {item item' : Document} {items items' : List Document} :
      SameShape (.list (item :: items)) (.list (item' :: items'))
  | noFields : SameShape (.record []) (.record [])
  | fields {entry entry' : Label × Document} {entries entries' : List (Label × Document)} :
      SameShape (.record (entry :: entries)) (.record (entry' :: entries'))

theorem sameShape_of_lines_eq (h : document.IsPlain) (hother : other.IsPlain)
    (hlines : document.lines = other.lines) : SameShape document other := by
  obtain ⟨line, hline⟩ := Option.isSome_iff_exists.mp
    (List.isSome_head?.mpr (lines_ne_nil document))
  have hshape : document.shape = other.shape :=
    (lineShape_of_mem_head? h hline).symm.trans (lineShape_of_mem_head? hother (hlines ▸ hline))
  rcases document with content | (_ | ⟨item, items⟩) | (_ | ⟨entry, entries⟩) <;>
    rcases other with content' | (_ | ⟨item', items'⟩) | (_ | ⟨entry', entries'⟩) <;>
    first | constructor | cases hshape

-- the induction is on the document; the items and the fields of a level are lists of their own
mutual

/-- **A document** is told from its lines. -/
theorem eq_of_lines_eq : ∀ (document : Document) {other : Document}, document.IsPlain →
    other.IsPlain → document.lines = other.lines → document = other
  | .text content, other, h, hother, hlines => by
    cases sameShape_of_lines_eq h hother hlines
    exact congrArg Document.text (String.toList_inj.mp (scalar_injective (List.cons.inj hlines).1))
  | .list [], other, h, hother, hlines => by
    cases sameShape_of_lines_eq h hother hlines
    rfl
  | .list (item :: items), other, h, hother, hlines => by
    cases sameShape_of_lines_eq h hother hlines
    cases h with
    | list h =>
      cases hother with
      | list hother => exact congrArg Document.list (eq_of_itemLines_eq (item :: items) h hother hlines)
  | .record [], other, h, hother, hlines => by
    cases sameShape_of_lines_eq h hother hlines
    rfl
  | .record (entry :: entries), other, h, hother, hlines => by
    cases sameShape_of_lines_eq h hother hlines
    cases h with
    | record hlabels hvalues =>
      cases hother with
      | record hlabels' hvalues' =>
        exact congrArg Document.record
          (eq_of_recordLines_eq (entry :: entries) hlabels hvalues hlabels' hvalues' hlines)

/-- The items of a list are told from their lines. -/
theorem eq_of_itemLines_eq : ∀ (items : List Document) {others : List Document},
    (∀ item ∈ items, item.IsPlain) → (∀ item ∈ others, item.IsPlain) →
    itemLines items = itemLines others → items = others
  | [], others, _, _, hlines => by
    cases others with
    | nil => rfl
    | cons other others =>
      exact absurd hlines.symm (lines_ne_nil (.list (other :: others)))
  | item :: items, others, h, hothers, hlines => by
    cases others with
    | nil => exact absurd hlines (lines_ne_nil (.list (item :: items)))
    | cons other others =>
      obtain ⟨hitem, hitems⟩ := List.forall_mem_cons.mp h
      obtain ⟨hother, hothers⟩ := List.forall_mem_cons.mp hothers
      obtain ⟨hfirst, hrest⟩ := hang_append_inj (lines_ne_nil item) (lines_ne_nil other)
        (endsRun_itemLines items) (endsRun_itemLines others) hlines
      rw [eq_of_lines_eq item hitem hother hfirst, eq_of_itemLines_eq items hitems hothers hrest]

/-- The fields of a record are told from their lines. -/
theorem eq_of_recordLines_eq : ∀ (fields : List (Label × Document)) {others : List (Label × Document)},
    (∀ entry ∈ fields, entry.1.IsPlain) → (∀ entry ∈ fields, entry.2.IsPlain) →
    (∀ entry ∈ others, entry.1.IsPlain) → (∀ entry ∈ others, entry.2.IsPlain) →
    recordLines fields = recordLines others → fields = others
  | [], others, _, _, _, _, hlines => by
    cases others with
    | nil => rfl
    | cons other others => exact absurd hlines.symm (lines_ne_nil (.record (other :: others)))
  | (label, value) :: fields, others, hlabels, hvalues, hlabels', hvalues', hlines => by
    cases others with
    | nil => exact absurd hlines (lines_ne_nil (.record ((label, value) :: fields)))
    | cons other others =>
      obtain ⟨label', value'⟩ := other
      rw [List.forall_mem_cons] at hlabels hvalues hlabels' hvalues'
      obtain ⟨hlabel, hvalue, hrest⟩ := fieldLines_append_inj hlabels.1 hlabels'.1
        (endsRun_recordLines hlabels.2) (endsRun_recordLines hlabels'.2) hlines
      have hentry := eq_of_lines_eq value hvalues.1 hvalues'.1 hvalue
      have hfields := eq_of_recordLines_eq fields hlabels.2 hvalues.2 hlabels'.2 hvalues'.2 hrest
      exact congrArg₂ List.cons (Prod.ext hlabel hentry) hfields

end

/-! ### Printable lines -/

section Characters
variable {p : Char → Bool} (hblank : p ' ' = true) (h : ∀ line ∈ lines, ∀ c ∈ line, p c = true)
include hblank h

theorem forall_mem_hang {front : List Char} (hfront : ∀ c ∈ front, p c = true) :
    ∀ line ∈ hang front lines, ∀ c ∈ line, p c = true := by
  cases lines with
  | nil => exact nofun
  | cons first lines =>
    obtain ⟨hfirst, hlines⟩ := List.forall_mem_cons.mp h
    refine List.forall_mem_cons.mpr ⟨List.forall_mem_append.mpr ⟨hfront, hfirst⟩, fun line hline => ?_⟩
    obtain ⟨line, hmem, rfl⟩ := List.mem_map.mp hline
    refine List.forall_mem_append.mpr ⟨fun c hc => ?_, hlines line hmem⟩
    rw [List.eq_of_mem_replicate hc]
    exact hblank

theorem forall_mem_indent : ∀ line ∈ indent lines, ∀ c ∈ line, p c = true := by
  intro line hline
  obtain ⟨line, hmem, rfl⟩ := List.mem_map.mp hline
  exact List.forall_mem_cons.mpr ⟨hblank, List.forall_mem_cons.mpr ⟨hblank, h line hmem⟩⟩

theorem forall_mem_fieldLines (hcolon : p ':' = true) {label : List Char}
    (hlabel : ∀ c ∈ label, p c = true) (value : Document) :
    ∀ line ∈ fieldLines label value lines, ∀ c ∈ line, p c = true := by
  have hfront : ∀ c ∈ label ++ [':'], p c = true :=
    List.forall_mem_append.mpr ⟨hlabel, List.forall_mem_singleton.mpr hcolon⟩
  have hbehind : ∀ c ∈ label ++ [':', ' '], p c = true := List.forall_mem_append.mpr
    ⟨hlabel, List.forall_mem_cons.mpr ⟨hcolon, List.forall_mem_singleton.mpr hblank⟩⟩
  unfold fieldLines
  split
  · exact forall_mem_hang hblank h hbehind
  · exact forall_mem_hang hblank h hbehind
  · exact forall_mem_hang hblank h hbehind
  · exact List.forall_mem_cons.mpr ⟨hfront, h⟩
  · exact List.forall_mem_cons.mpr ⟨hfront, forall_mem_indent hblank h⟩

end Characters

mutual

/-- **The lines of a document** have printable characters. -/
theorem isPrintable_of_mem_lines : ∀ (document : Document), document.IsPlain →
    ∀ line ∈ document.lines, ∀ c ∈ line, isPrintable c = true
  | .text content, h => by
    cases h with
    | text h => exact List.forall_mem_singleton.mpr (isPrintable_of_mem_scalar h)
  | .list [], _ => List.forall_mem_singleton.mpr (List.all_eq_true.mp (by decide))
  | .list (item :: items), h => by
    cases h with
    | list h => exact isPrintable_of_mem_itemLines (item :: items) h
  | .record [], _ => List.forall_mem_singleton.mpr (List.all_eq_true.mp (by decide))
  | .record (entry :: entries), h => by
    cases h with
    | record hlabels hvalues => exact isPrintable_of_mem_recordLines (entry :: entries) hlabels hvalues

/-- The lines of items have printable characters. -/
theorem isPrintable_of_mem_itemLines : ∀ (items : List Document), (∀ item ∈ items, item.IsPlain) →
    ∀ line ∈ itemLines items, ∀ c ∈ line, isPrintable c = true
  | [], _ => nofun
  | item :: items, h => by
    rw [List.forall_mem_cons] at h
    exact List.forall_mem_append.mpr
      ⟨forall_mem_hang rfl (isPrintable_of_mem_lines item h.1) (List.all_eq_true.mp (by decide)),
        isPrintable_of_mem_itemLines items h.2⟩

/-- The lines of fields have printable characters. -/
theorem isPrintable_of_mem_recordLines : ∀ (fields : List (Label × Document)),
    (∀ entry ∈ fields, entry.1.IsPlain) → (∀ entry ∈ fields, entry.2.IsPlain) →
    ∀ line ∈ recordLines fields, ∀ c ∈ line, isPrintable c = true
  | [], _, _ => nofun
  | (label, value) :: fields, hlabels, hvalues => by
    rw [List.forall_mem_cons] at hlabels hvalues
    have hlabel : ∀ c ∈ label.chars, isPrintable c = true := fun c hc =>
      isPrintable_of_isAlphanum (Label.isAlphanum_of_mem_chars hlabels.1 c hc)
    have hvalue := isPrintable_of_mem_lines value hvalues.1
    exact List.forall_mem_append.mpr ⟨forall_mem_fieldLines rfl hvalue rfl hlabel value,
      isPrintable_of_mem_recordLines fields hlabels.2 hvalues.2⟩

end

/-! ### The text of a document -/

/-- **The lines of a document** are told from its text. -/
theorem splitOn_toYaml (h : document.IsPlain) :
    document.toYaml.toList.splitOn '\n' = document.lines := by
  unfold toYaml
  rw [String.toList_ofList]
  refine List.splitOn_intercalate '\n' (fun line hline hbreak => ?_) (lines_ne_nil document)
  exact absurd (isPrintable_of_mem_lines document h line hline '\n' hbreak) (by decide)

/-- **No two documents** are written alike. -/
theorem eq_of_toYaml_eq (h : document.IsPlain) (hother : other.IsPlain)
    (hyaml : document.toYaml = other.toYaml) : document = other := by
  refine eq_of_lines_eq document h hother ?_
  rw [← splitOn_toYaml h, hyaml, splitOn_toYaml hother]

end Document

end Harmony

import Harmony.Json.Parser
import Harmony.Proofs.Json.Number

/-! # Written JSON is read back

A value is written as the texts of its tokens, with blanks between them as the layout has it. The
tokens are found again one by one: a bracket, a comma, a colon and a word say where they end, a string
ends at its quote, and a number where a character follows that stands in no number. From its tokens
the value is put together again, one bracket at a time.

* `WellFormed`: numbers have the form of numbers, and strings are written as strings are.
* `Json.tokens`: the tokens of a value. `tokens?_chars` finds them in its text.
* `valueFrom?_tokens`: the value of the tokens.
* `parse?_write`: a value is read back from its text.
* `trimEnd_write`: no text of a value ends with a blank. -/

namespace Harmony.Json

/-! ### Well-formed values -/

/-- The text may stand between quotes: it is scanned up to the quote behind it. -/
def IsWritten (written : List Char) : Prop :=
  ∀ rest, scan? (written ++ '"' :: rest) = some (written, rest)

/-- Numbers have the form of numbers, strings and keys may stand between quotes. -/
inductive WellFormed : Json → Prop
  | null : WellFormed .null
  | bool (b : Bool) : WellFormed (.bool b)
  | number {lexeme : List Char} (h : isNumber lexeme = true) : WellFormed (.number lexeme)
  | string {written : List Char} (h : IsWritten written) : WellFormed (.string written)
  | array {items : List Json} (h : ∀ item ∈ items, WellFormed item) : WellFormed (.array items)
  | object {members : List (List Char × Json)} (hkeys : ∀ member ∈ members, IsWritten member.1)
      (h : ∀ member ∈ members, WellFormed member.2) : WellFormed (.object members)

/-- Nothing stands between the tokens but blanks. -/
structure Layout.IsBlank (layout : Layout) : Prop where
  lineBreak : ∀ depth, ∀ c ∈ layout.lineBreak depth, isJsonBlank c = true
  afterColon : ∀ c ∈ layout.afterColon, isJsonBlank c = true

theorem isBlank_compact : Layout.compact.IsBlank where
  lineBreak _ _ hc := absurd hc List.not_mem_nil
  afterColon _ hc := absurd hc List.not_mem_nil

theorem isBlank_pretty : Layout.pretty.IsBlank where
  lineBreak depth c hc := by
    rcases List.mem_cons.mp hc with rfl | hc
    · rfl
    · rw [List.eq_of_mem_replicate hc]
      rfl
  afterColon c hc := by
    rw [List.mem_singleton.mp hc]
    rfl

/-! ### Tokens -/

mutual

/-- **The tokens of a value.** -/
def tokens : Json → List Token
  | .null => [.null]
  | .bool b => [.bool b]
  | .number lexeme => [.number lexeme]
  | .string written => [.string written]
  | .array [] => [.beginArray, .endArray]
  | .array (item :: items) => .beginArray :: item.tokens ++ itemTokens items ++ [.endArray]
  | .object [] => [.beginObject, .endObject]
  | .object ((key, value) :: members) =>
    .beginObject :: .string key :: .colon :: value.tokens ++ memberTokens members ++ [.endObject]

/-- The tokens of the items of an array after the first. -/
def itemTokens : List Json → List Token
  | [] => []
  | item :: items => .comma :: item.tokens ++ itemTokens items

/-- The tokens of the members of an object after the first. -/
def memberTokens : List (List Char × Json) → List Token
  | [] => []
  | (key, value) :: members =>
    .comma :: .string key :: .colon :: value.tokens ++ memberTokens members

end

/-! ### Finding one token -/

theorem tokensFrom?_eq_drop (skip : Nat) (cs : List Char) :
    tokensFrom? skip cs = tokens? (cs.drop skip) := by
  induction cs generalizing skip with
  | nil => cases skip <;> rfl
  | cons c cs ih =>
    cases skip with
    | zero => rfl
    | succ skip => exact ih skip

section Token
variable {c : Char} {cs rest : List Char} {token : Token} {more : Nat}

theorem tokens?_of_token? (hblank : isJsonBlank c = false) (h : token? c cs = some (token, more)) :
    tokens? (c :: cs) = (tokens? (cs.drop more)).map (token :: ·) := by
  rw [← tokensFrom?_eq_drop]
  unfold tokens?
  rw [tokensFrom?]
  simp only [hblank, h, Bool.false_eq_true, if_false]

theorem tokens?_blanks {run : List Char} (hrun : ∀ c ∈ run, isJsonBlank c = true) :
    tokens? (run ++ rest) = tokens? rest := by
  induction run with
  | nil => rfl
  | cons c run ih =>
    obtain ⟨hc, hrest⟩ := List.forall_mem_cons.mp hrun
    rw [← ih hrest, List.cons_append]
    unfold tokens?
    rw [tokensFrom?]
    simp only [hc, if_true]

theorem isJsonBlank_of_punctuation? (h : punctuation? c = some token) : isJsonBlank c = false := by
  unfold punctuation? at h
  split_ifs at h
  all_goals
    subst c
    rfl

theorem tokens?_punctuation (h : punctuation? c = some token) :
    tokens? (c :: rest) = (tokens? rest).map (token :: ·) := by
  have htoken : token? c rest = some (token, 0) := by
    unfold token?
    rw [h]
  exact tokens?_of_token? (isJsonBlank_of_punctuation? h) htoken

/-- **A string** is found as it is written. -/
theorem tokens?_quoted {written : List Char} (h : IsWritten written) :
    tokens? (quoted written ++ rest) = (tokens? rest).map (.string written :: ·) := by
  have htext : quoted written ++ rest = '"' :: (written ++ '"' :: rest) := by simp [quoted]
  have htoken : token? '"' (written ++ '"' :: rest) = some (.string written, written.length + 1) := by
    unfold token?
    simp only [punctuation?, h rest, Option.map_some, if_true, if_false, Char.reduceEq]
  have hdrop : (written ++ '"' :: rest).drop (written.length + 1) = rest := by
    rw [← List.drop_drop, List.drop_left]
    rfl
  rw [htext, tokens?_of_token? rfl htoken, hdrop]

theorem tokens?_word {word : List Char} (h : (word, token) ∈ words) :
    tokens? (word ++ rest) = (tokens? rest).map (token :: ·) := by
  simp only [words, List.mem_cons, Prod.mk.injEq, List.not_mem_nil, or_false] at h
  rcases h with ⟨rfl, rfl⟩ | ⟨rfl, rfl⟩ | ⟨rfl, rfl⟩
  · have htoken : token? 'n' ('u' :: 'l' :: 'l' :: rest) = some (.null, 3) := rfl
    exact tokens?_of_token? rfl htoken
  · have htoken : token? 't' ('r' :: 'u' :: 'e' :: rest) = some (.bool true, 3) := rfl
    exact tokens?_of_token? rfl htoken
  · have htoken : token? 'f' ('a' :: 'l' :: 's' :: 'e' :: rest) = some (.bool false, 4) := rfl
    exact tokens?_of_token? rfl htoken

/-! ### Finding a number -/

/-- No number goes on into the text. -/
def EndsNumber (rest : List Char) : Prop := ∀ c ∈ rest.head?, isNumberChar c = false

theorem endsNumber_cons (h : isNumberChar c = false) : EndsNumber (c :: rest) := Text.endsRun_cons h

theorem isNumberChar_of_isJsonBlank (h : isJsonBlank c = true) : isNumberChar c = false := by
  simp only [isJsonBlank, Bool.or_eq_true, beq_iff_eq] at h
  rcases h with ((rfl | rfl) | rfl) | rfl <;> decide

theorem endsNumber_blanks {run : List Char} (hrun : ∀ c ∈ run, isJsonBlank c = true)
    (h : EndsNumber rest) : EndsNumber (run ++ rest) := by
  cases run with
  | nil => exact h
  | cons c run => exact endsNumber_cons (isNumberChar_of_isJsonBlank (hrun c List.mem_cons_self))

/-- A character of numbers begins no other token. -/
theorem token?_of_isNumberChar (h : isNumberChar c = true) :
    token? c cs =
      let lexeme := (c :: cs).takeWhile isNumberChar
      if isNumber lexeme then some (.number lexeme, lexeme.length - 1) else none := by
  have hne : ∀ d, isNumberChar d = false → c ≠ d := by
    rintro d hd rfl
    rw [h] at hd
    cases hd
  have hpunctuation : punctuation? c = none := by
    unfold punctuation?
    simp only [hne '[' rfl, hne ']' rfl, hne '\x7b' rfl, hne '\x7d' rfl, hne ',' rfl, hne ':' rfl,
      if_false]
  have hwords : (words.find? fun entry => entry.1.isPrefixOf (c :: cs)) = none := by
    have hfirst : ∀ entry ∈ words, entry.1.head?.any (fun d => !isNumberChar d) = true := by decide
    refine List.find?_eq_none.mpr fun entry hentry hprefix => ?_
    obtain ⟨more, hmore⟩ := List.isPrefixOf_iff_prefix.mp hprefix
    have hword := hfirst entry hentry
    cases hletters : entry.1 with
    | nil =>
      rw [hletters] at hword
      cases hword
    | cons d ds =>
      rw [hletters] at hword hmore
      obtain rfl : d = c := (List.cons.inj hmore).1
      simp [h] at hword
  unfold token?
  simp only [hpunctuation, hne '"' rfl, if_false]
  rw [hwords]

/-- **A number** is found as it is written, if none goes on behind it. -/
theorem tokens?_number {lexeme : List Char} (h : isNumber lexeme = true) (hrest : EndsNumber rest) :
    tokens? (lexeme ++ rest) = (tokens? rest).map (.number lexeme :: ·) := by
  have hchars := isNumberChar_of_isNumber h
  have htake := Text.takeWhile_append_of_endsRun hchars hrest
  obtain ⟨c, cs, rfl⟩ := List.exists_cons_of_ne_nil (ne_nil_of_isNumber h)
  rw [List.cons_append] at htake ⊢
  have hc := hchars c List.mem_cons_self
  have hblank : isJsonBlank c = false := by
    by_contra hb
    rw [Bool.not_eq_false] at hb
    rw [isNumberChar_of_isJsonBlank hb] at hc
    cases hc
  have htoken : token? c (cs ++ rest) = some (.number (c :: cs), cs.length) := by
    rw [token?_of_isNumberChar hc]
    simp only [htake, h, if_true]
    rfl
  rw [tokens?_of_token? hblank htoken, List.drop_left]

end Token

/-! ### The tokens of a text -/

theorem endsNumber_itemChars {layout : Layout} {depth : Nat} {items : List Json}
    {rest : List Char} (h : EndsNumber rest) :
    EndsNumber (itemChars layout depth items ++ rest) := by
  cases items with
  | nil => exact h
  | cons item items => exact endsNumber_cons rfl

theorem endsNumber_memberChars {layout : Layout} {depth : Nat} {members : List (List Char × Json)}
    {rest : List Char} (h : EndsNumber rest) :
    EndsNumber (memberChars layout depth members ++ rest) := by
  cases members with
  | nil => exact h
  | cons member members => exact endsNumber_cons rfl

section Layout
variable {layout : Layout} (hlayout : layout.IsBlank)
include hlayout

theorem endsNumber_lineBreak {c : Char} (h : isNumberChar c = false) (depth : Nat)
    (rest : List Char) : EndsNumber (layout.lineBreak depth ++ c :: rest) :=
  endsNumber_blanks (hlayout.lineBreak depth) (endsNumber_cons h)

-- the induction is on the value; what follows it is arbitrary, as long as no number goes on into it
mutual

/-- **The tokens of a value** are found in its text. -/
theorem tokens?_chars : ∀ (json : Json) (depth : Nat) (rest : List Char), json.WellFormed →
    EndsNumber rest →
      tokens? (json.chars layout depth ++ rest) = (tokens? rest).map (json.tokens ++ ·)
  | .null, _, _, _, _ => tokens?_word (by simp [words, chars])
  | .bool true, _, _, _, _ => tokens?_word (by simp [words, chars])
  | .bool false, _, _, _, _ => tokens?_word (by simp [words, chars])
  | .number lexeme, _, rest, h, hrest => by
    cases h with
    | number h => exact tokens?_number h hrest
  | .string written, _, rest, h, _ => by
    cases h with
    | string h => exact tokens?_quoted h
  | .array [], _, rest, _, _ => by
    show tokens? ('[' :: ']' :: rest) = _
    rw [tokens?_punctuation rfl, tokens?_punctuation rfl, Option.map_map]
    rfl
  | .array (item :: items), depth, rest, h, hrest => by
    cases h with
    | array h =>
      obtain ⟨hitem, hitems⟩ := List.forall_mem_cons.mp h
      have hends := endsNumber_lineBreak hlayout (c := ']') rfl depth rest
      have htext : (Json.array (item :: items)).chars layout depth ++ rest =
          '[' :: (layout.lineBreak (depth + 1) ++ (item.chars layout (depth + 1) ++
            (itemChars layout (depth + 1) items ++ (layout.lineBreak depth ++ ']' :: rest)))) := by
        simp [chars]
      rw [htext, tokens?_punctuation rfl, tokens?_blanks (hlayout.lineBreak _),
        tokens?_chars item _ _ hitem (endsNumber_itemChars hends),
        tokens?_itemChars items _ _ hitems hends, tokens?_blanks (hlayout.lineBreak _),
        tokens?_punctuation rfl]
      simp [tokens, Function.comp_def]
  | .object [], _, rest, _, _ => by
    show tokens? ('\x7b' :: '\x7d' :: rest) = _
    rw [tokens?_punctuation rfl, tokens?_punctuation rfl, Option.map_map]
    rfl
  | .object ((key, value) :: members), depth, rest, h, hrest => by
    cases h with
    | object hkeys h =>
      obtain ⟨hkey, hkeys⟩ := List.forall_mem_cons.mp hkeys
      obtain ⟨hvalue, hvalues⟩ := List.forall_mem_cons.mp h
      have hends := endsNumber_lineBreak hlayout (c := '\x7d') rfl depth rest
      have htext : (Json.object ((key, value) :: members)).chars layout depth ++ rest =
          '\x7b' :: (layout.lineBreak (depth + 1) ++ (quoted key ++ ':' :: (layout.afterColon ++
            (value.chars layout (depth + 1) ++ (memberChars layout (depth + 1) members ++
              (layout.lineBreak depth ++ '\x7d' :: rest)))))) := by
        simp [chars]
      rw [htext, tokens?_punctuation rfl, tokens?_blanks (hlayout.lineBreak _),
        tokens?_quoted hkey, tokens?_punctuation rfl, tokens?_blanks hlayout.afterColon,
        tokens?_chars value _ _ hvalue (endsNumber_memberChars hends),
        tokens?_memberChars members _ _ hkeys hvalues hends, tokens?_blanks (hlayout.lineBreak _),
        tokens?_punctuation rfl]
      simp [tokens, Function.comp_def]

theorem tokens?_itemChars : ∀ (items : List Json) (depth : Nat) (rest : List Char),
    (∀ item ∈ items, item.WellFormed) → EndsNumber rest →
      tokens? (itemChars layout depth items ++ rest) = (tokens? rest).map (itemTokens items ++ ·)
  | [], _, rest, _, _ => by simp [itemChars, itemTokens]
  | item :: items, depth, rest, h, hrest => by
    obtain ⟨hitem, hitems⟩ := List.forall_mem_cons.mp h
    have htext : itemChars layout depth (item :: items) ++ rest =
        ',' :: (layout.lineBreak depth ++ (item.chars layout depth ++
          (itemChars layout depth items ++ rest))) := by
      simp [itemChars]
    rw [htext, tokens?_punctuation rfl, tokens?_blanks (hlayout.lineBreak _),
      tokens?_chars item _ _ hitem (endsNumber_itemChars hrest),
      tokens?_itemChars items _ _ hitems hrest]
    simp [itemTokens, Function.comp_def]

theorem tokens?_memberChars : ∀ (members : List (List Char × Json)) (depth : Nat)
    (rest : List Char), (∀ member ∈ members, IsWritten member.1) →
    (∀ member ∈ members, member.2.WellFormed) → EndsNumber rest →
      tokens? (memberChars layout depth members ++ rest) =
        (tokens? rest).map (memberTokens members ++ ·)
  | [], _, rest, _, _, _ => by simp [memberChars, memberTokens]
  | (key, value) :: members, depth, rest, hkeys, h, hrest => by
    obtain ⟨hkey, hkeys⟩ := List.forall_mem_cons.mp hkeys
    obtain ⟨hvalue, hvalues⟩ := List.forall_mem_cons.mp h
    have htext : memberChars layout depth ((key, value) :: members) ++ rest =
        ',' :: (layout.lineBreak depth ++ (quoted key ++ ':' :: (layout.afterColon ++
          (value.chars layout depth ++ (memberChars layout depth members ++ rest))))) := by
      simp [memberChars]
    rw [htext, tokens?_punctuation rfl, tokens?_blanks (hlayout.lineBreak _), tokens?_quoted hkey,
      tokens?_punctuation rfl, tokens?_blanks hlayout.afterColon,
      tokens?_chars value _ _ hvalue (endsNumber_memberChars hrest),
      tokens?_memberChars members _ _ hkeys hvalues hrest]
    simp [memberTokens, Function.comp_def]

end

end Layout

/-! ### The value of tokens -/

theorem head?_tokens (json : Json) (rest : List Token) :
    (json.tokens ++ rest).head? ≠ some .endArray := by
  cases json with
  | null | bool | number | string => simp [tokens]
  | array items => cases items <;> simp [tokens]
  | object members => cases members <;> simp [tokens]

theorem valueFrom?_beginArray {ts : List Token} (h : ts.head? ≠ some .endArray)
    (stack : List Frame) :
    valueFrom? stack (.beginArray :: ts) = valueFrom? (.array [] :: stack) ts := by
  have hne : ∀ others, ts = .endArray :: others → False := by
    rintro others rfl
    exact h rfl
  rw [valueFrom?]
  exact hne

mutual

/-- **A value is read from its tokens**, whatever brackets are open. -/
theorem valueFrom?_tokens : ∀ (json : Json) (stack : List Frame) (rest : List Token),
    valueFrom? stack (json.tokens ++ rest) = behind? json stack rest
  | .null, _, _ => by simp [tokens, valueFrom?]
  | .bool b, _, _ => by simp [tokens, valueFrom?]
  | .number lexeme, _, _ => by simp [tokens, valueFrom?]
  | .string written, _, _ => by simp [tokens, valueFrom?]
  | .array [], _, _ => by simp [tokens, valueFrom?]
  | .array (item :: items), stack, rest => by
    have htokens : (Json.array (item :: items)).tokens ++ rest =
        .beginArray :: (item.tokens ++ (itemTokens items ++ .endArray :: rest)) := by
      simp [tokens]
    rw [htokens, valueFrom?_beginArray (head?_tokens item _), valueFrom?_tokens item,
      behind?_itemTokens items item [] stack rest]
    rfl
  | .object [], _, _ => by simp [tokens, valueFrom?]
  | .object ((key, value) :: members), stack, rest => by
    have htokens : (Json.object ((key, value) :: members)).tokens ++ rest =
        .beginObject :: .string key :: .colon ::
          (value.tokens ++ (memberTokens members ++ .endObject :: rest)) := by
      simp [tokens]
    rw [htokens, valueFrom?, valueFrom?_tokens value,
      behind?_memberTokens members key value [] stack rest]
    rfl

theorem behind?_itemTokens : ∀ (items : List Json) (value : Json) (read : List Json)
    (stack : List Frame) (rest : List Token),
    behind? value (.array read :: stack) (itemTokens items ++ .endArray :: rest) =
      behind? (.array (read.reverse ++ value :: items)) stack rest
  | [], value, read, stack, rest => by simp [itemTokens, behind?]
  | item :: items, value, read, stack, rest => by
    have htokens : itemTokens (item :: items) ++ .endArray :: rest =
        .comma :: (item.tokens ++ (itemTokens items ++ .endArray :: rest)) := by
      simp [itemTokens]
    rw [htokens, behind?, valueFrom?_tokens item, behind?_itemTokens items]
    simp

theorem behind?_memberTokens : ∀ (members : List (List Char × Json)) (key : List Char)
    (value : Json) (read : List (List Char × Json)) (stack : List Frame) (rest : List Token),
    behind? value (.object read key :: stack) (memberTokens members ++ .endObject :: rest) =
      behind? (.object (read.reverse ++ (key, value) :: members)) stack rest
  | [], key, value, read, stack, rest => by simp [memberTokens, behind?]
  | (next, value') :: members, key, value, read, stack, rest => by
    have htokens : memberTokens ((next, value') :: members) ++ .endObject :: rest =
        .comma :: .string next :: .colon ::
          (value'.tokens ++ (memberTokens members ++ .endObject :: rest)) := by
      simp [memberTokens]
    rw [htokens, behind?, valueFrom?_tokens value', behind?_memberTokens members]
    simp

end

/-- **A well-formed value is read back** from its text, in any layout with blanks. -/
theorem parse?_write {layout : Layout} (hlayout : layout.IsBlank) {json : Json}
    (h : json.WellFormed) : parse? (json.write layout) = some json := by
  have hends : EndsNumber [] := fun c hc => absurd hc (by simp)
  have htokens : tokens? (json.chars layout 0) = some json.tokens := by
    have htext := tokens?_chars hlayout json 0 [] h hends
    rw [List.append_nil] at htext
    rw [htext]
    show some (json.tokens ++ []) = some json.tokens
    rw [List.append_nil]
  have hvalue := valueFrom?_tokens json [] []
  rw [List.append_nil] at hvalue
  unfold parse? write parseChars?
  rw [String.toList_ofList, htokens]
  show valueFrom? [] json.tokens = some json
  rw [hvalue, behind?]

/-! ### The end of a text -/

/-- A text of a value ends with a bracket, a quote, a letter or a character of a number. -/
theorem isBlank_getLast_chars {layout : Layout} {depth : Nat} {json : Json} (h : json.WellFormed) :
    ∀ c ∈ (json.chars layout depth).getLast?, Text.isBlank c = false := by
  have hclosed : ∀ (text : List Char) (last : Char), Text.isBlank last = false →
      ∀ c ∈ (text ++ [last]).getLast?, Text.isBlank c = false := by
    intro text last hlast c hc
    rw [List.getLast?_concat] at hc
    obtain rfl : last = c := Option.some.inj hc
    exact hlast
  cases json with
  | null => exact hclosed ['n', 'u', 'l'] 'l' rfl
  | bool b =>
    cases b with
    | true => exact hclosed ['t', 'r', 'u'] 'e' rfl
    | false => exact hclosed ['f', 'a', 'l', 's'] 'e' rfl
  | number lexeme =>
    cases h with
    | number h =>
      intro c hc
      exact isBlank_of_isNumberChar (isNumberChar_of_isNumber h c (List.mem_of_mem_getLast? hc))
  | string written => exact hclosed ('"' :: written) '"' rfl
  | array items =>
    cases items with
    | nil => exact hclosed ['['] ']' rfl
    | cons item items => exact hclosed _ ']' rfl
  | object members =>
    cases members with
    | nil => exact hclosed ['\x7b'] '\x7d' rfl
    | cons member members => exact hclosed _ '\x7d' rfl

/-- **No text of a value ends with a blank**, so nothing is trimmed off it. -/
theorem trimEnd_write {layout : Layout} {json : Json} (h : json.WellFormed) :
    Text.trimEnd (json.write layout).toList = (json.write layout).toList := by
  unfold write
  rw [String.toList_ofList]
  exact Text.trimEnd_eq_self (isBlank_getLast_chars h)

end Harmony.Json

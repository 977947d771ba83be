import ReactiveReach.Json.Printer
import ReactiveReach.Json.Reader
import ReactiveReach.Proofs.JsonTokens

/-!
# Reading back written values

A text of a value has the value's tokens, in any spelling and with any blanks; both layouts that are
written are such texts. Any of them is scanned as those tokens, which are assembled into the value
again, however deep it is nested. What is kept of a number or of a string is what its text tells.
-/

namespace ReactiveReach.Json

mutual

/-- The tokens of a value. -/
def tokens : Json → List Token
  | .null => [.null]
  | .bool truth => [.bool truth]
  | .natural value => [.natural value]
  | .otherNumber number => [.otherNumber number]
  | .text content => [.text content]
  | .array [] => [.openArray, .closeArray]
  | .array (item :: items) => .openArray :: (tokens item ++ itemTokens items)
  | .object [] => [.openObject, .closeObject]
  | .object ((name, value) :: members) =>
    .openObject :: .text name :: .colon :: (tokens value ++ memberTokens members)

/-- The tokens of the items after the first, and of the end of the array. -/
def itemTokens : List Json → List Token
  | [] => [.closeArray]
  | item :: items => .comma :: (tokens item ++ itemTokens items)

/-- The tokens of the members after the first, and of the end of the object. -/
def memberTokens : List (Option String × Json) → List Token
  | [] => [.closeObject]
  | (name, value) :: members =>
    .comma :: .text name :: .colon :: (tokens value ++ memberTokens members)

end

/-- The text is JSON text of the value: its tokens, each in any spelling and with any blanks. -/
def IsText (text : String) (json : Json) : Prop := Spaced json.tokens text.toList

/-! ## Writing -/

private theorem exists_piece (c : Char) : ∃ piece : Piece, piece.Spelled (escaped c) ∧
    ∀ rest, Piece.decode (piece :: rest) = (Piece.decode rest).map (c :: ·) := by
  cases escapes : escapeLetter? c with
  | some letter =>
      have unescapes : unescape? letter = some c := by
        unfold escapeLetter? at escapes
        split at escapes <;> simp at escapes <;> subst escapes <;> decide
      exact ⟨.char c, by simpa [escaped, escapes] using Piece.Spelled.letter unescapes,
        fun _ => rfl⟩
  | none =>
      by_cases control : c.toNat < 0x20
      · -- Two digits are enough for the control characters.
        have zero : Digits.hexValue? '0' = some 0 := by decide
        have spelled := Piece.Spelled.unit zero zero
          (Digits.hexValue?_digitChar (by omega : c.toNat / 16 < 16))
          (Digits.hexValue?_digitChar (by omega : c.toNat % 16 < 16))
        have value : 16 * (16 * (16 * 0 + 0) + c.toNat / 16) + c.toNat % 16 = c.toNat := by omega
        rw [value] at spelled
        refine ⟨.unit c.toNat, by simpa [escaped, escapes, control] using spelled, fun rest => ?_⟩
        rw [Piece.decode_plain, Char.ofNat_toNat]
        · simp only [Piece.isLow, Bool.and_eq_true, decide_eq_true_eq]
          omega
        · simp only [Piece.isHigh, Bool.and_eq_true, decide_eq_true_eq]
          omega
      · have noQuote : c ≠ '"' := by rintro rfl; simp [escapeLetter?] at escapes
        have noBackslash : c ≠ '\\' := by rintro rfl; simp [escapeLetter?] at escapes
        exact ⟨.char c, by simpa [escaped, escapes, control] using
          Piece.Spelled.plain noQuote noBackslash (Nat.le_of_not_lt control), fun _ => rfl⟩

private theorem exists_pieces (content : List Char) :
    ∃ pieces, List.Forall₂ Piece.Spelled pieces (content.map escaped) ∧
      Piece.decode pieces = some content := by
  induction content with
  | nil => exact ⟨[], .nil, rfl⟩
  | cons c content ih =>
      obtain ⟨piece, first, decodes⟩ := exists_piece c
      obtain ⟨pieces, rest, decoded⟩ := ih
      exact ⟨piece :: pieces, .cons first rest, by rw [decodes, decoded, Option.map_some]⟩

theorem spelled_quoted (content : Option String) :
    Token.Spelled (.text content) (quoted content) := by
  cases content with
  | none =>
      have spelled : Piece.Spelled (.unit 0xD800) ['\\', 'u', 'd', '8', '0', '0'] :=
        .unit (by decide : Digits.hexValue? 'd' = some 13) (by decide : _ = some 8)
          (by decide : _ = some 0) (by decide : _ = some 0)
      exact .text (.cons spelled .nil)
  | some content =>
      obtain ⟨pieces, spelled, decoded⟩ := exists_pieces content.toList
      simpa [decoded, quoted, List.flatMap_def] using Token.Spelled.text spelled

theorem spelled_natural (n : Nat) : Token.Spelled (.natural n) (toString n).toList := by
  rw [Nat.toString_eq_ofList_toDigits, String.toList_ofList]
  simpa [WrittenNumber.wholeChars, WrittenNumber.token, WrittenNumber.isNatural] using
    Token.Spelled.number ⟨false, n, none, none⟩

theorem spelled_otherNumber (number : OtherNumber) :
    Token.Spelled (.otherNumber number) number.spelling := by
  obtain ⟨written, spelling, token⟩ := number.exists_written
  rw [← spelling, ← token]
  exact .number written

theorem spelled_bool (truth : Bool) : Token.Spelled (.bool truth) (atom (.bool truth)) := by
  cases truth with
  | true => exact .true
  | false => exact .false

private theorem areBlank_newLine (depth : Nat) : AreBlank (newLine depth) := by
  intro c member
  rcases List.mem_cons.mp member with isBreak | isSpace
  · exact .inr (.inr (.inl isBreak))
  · exact .inl (List.eq_of_mem_replicate isSpace)

private theorem areBlank_space : AreBlank [' '] := by simp [AreBlank]

private theorem spaced_nil : Spaced [] [] := .nil (by simp [AreBlank])

private theorem spaced_alone {token : Token} {chars : List Char} (spelled : token.Spelled chars) :
    Spaced [token] chars := by
  simpa using spaced_nil.spelled spelled

mutual

theorem spaced_compactChars (json : Json) : Spaced json.tokens (compactChars json) := by
  match json with
  | .null => exact spaced_alone .null
  | .bool truth => exact spaced_alone (spelled_bool truth)
  | .natural value => exact spaced_alone (spelled_natural value)
  | .otherNumber number => exact spaced_alone (spelled_otherNumber number)
  | .text content => exact spaced_alone (spelled_quoted content)
  | .array [] => exact (spaced_nil.mark rfl).mark rfl
  | .array (item :: items) =>
      have contents := (spaced_compactChars item).append (spaced_compactItems items)
      exact contents.mark rfl
  | .object [] => exact (spaced_nil.mark rfl).mark rfl
  | .object ((name, value) :: members) =>
      have contents := (spaced_compactChars value).append (spaced_compactMembers members)
      have valued : Spaced (.colon :: _) (':' :: _) := contents.mark rfl
      simpa [compactChars, tokens] using
        (valued.spelled (spelled_quoted name)).mark (rfl : Token.openObject.mark? = _)

theorem spaced_compactItems (items : List Json) :
    Spaced (itemTokens items) (compactItems items) := by
  match items with
  | [] => exact spaced_nil.mark rfl
  | item :: items =>
      have contents := (spaced_compactChars item).append (spaced_compactItems items)
      exact contents.mark rfl

theorem spaced_compactMembers (members : List (Option String × Json)) :
    Spaced (memberTokens members) (compactMembers members) := by
  match members with
  | [] => exact spaced_nil.mark rfl
  | (name, value) :: members =>
      have contents := (spaced_compactChars value).append (spaced_compactMembers members)
      have valued : Spaced (.colon :: _) (':' :: _) := contents.mark rfl
      simpa [compactMembers, memberTokens] using
        (valued.spelled (spelled_quoted name)).mark (rfl : Token.comma.mark? = _)

end

mutual

theorem spaced_indentedChars (depth : Nat) (json : Json) :
    Spaced json.tokens (indentedChars depth json) := by
  match json with
  | .null => exact spaced_alone .null
  | .bool truth => exact spaced_alone (spelled_bool truth)
  | .natural value => exact spaced_alone (spelled_natural value)
  | .otherNumber number => exact spaced_alone (spelled_otherNumber number)
  | .text content => exact spaced_alone (spelled_quoted content)
  | .array [] => exact (spaced_nil.mark rfl).mark rfl
  | .array (item :: items) =>
      have contents := (spaced_indentedChars (depth + 1) item).append
        (spaced_indentedItems depth items)
      have line := contents.blanks (areBlank_newLine (depth + 1))
      simpa [indentedChars, tokens] using line.mark (rfl : Token.openArray.mark? = _)
  | .object [] => exact (spaced_nil.mark rfl).mark rfl
  | .object ((name, value) :: members) =>
      have contents := (spaced_indentedChars (depth + 1) value).append
        (spaced_indentedMembers depth members)
      have valued : Spaced (.colon :: _) (':' :: _) := (contents.blanks areBlank_space).mark rfl
      have line := (valued.spelled (spelled_quoted name)).blanks (areBlank_newLine (depth + 1))
      simpa [indentedChars, tokens] using line.mark (rfl : Token.openObject.mark? = _)

theorem spaced_indentedItems (depth : Nat) (items : List Json) :
    Spaced (itemTokens items) (indentedItems depth items) := by
  match items with
  | [] => exact (spaced_nil.mark rfl).blanks (areBlank_newLine depth)
  | item :: items =>
      have contents := (spaced_indentedChars (depth + 1) item).append
        (spaced_indentedItems depth items)
      have line := contents.blanks (areBlank_newLine (depth + 1))
      simpa [indentedItems, itemTokens] using line.mark (rfl : Token.comma.mark? = _)

theorem spaced_indentedMembers (depth : Nat) (members : List (Option String × Json)) :
    Spaced (memberTokens members) (indentedMembers depth members) := by
  match members with
  | [] => exact (spaced_nil.mark rfl).blanks (areBlank_newLine depth)
  | (name, value) :: members =>
      have contents := (spaced_indentedChars (depth + 1) value).append
        (spaced_indentedMembers depth members)
      have valued : Spaced (.colon :: _) (':' :: _) := (contents.blanks areBlank_space).mark rfl
      have line := (valued.spelled (spelled_quoted name)).blanks (areBlank_newLine (depth + 1))
      simpa [indentedMembers, memberTokens] using line.mark (rfl : Token.comma.mark? = _)

end

theorem isText_compact (json : Json) : IsText json.compact json := by
  simpa [IsText, compact] using spaced_compactChars json

theorem isText_indented (json : Json) : IsText json.indented json := by
  simpa [IsText, indented] using spaced_indentedChars 0 json

/-! ## Scanning -/

/-- Behind a value that is complete stands a mark that ends its last word or number. -/
private theorem separates_itemTokens (items : List Json) :
    ∀ token ∈ (itemTokens items).head?, token.separates = true := by
  cases items <;> simp [itemTokens] <;> rfl

private theorem separates_memberTokens (members : List (Option String × Json)) :
    ∀ token ∈ (memberTokens members).head?, token.separates = true := by
  rcases members with _ | ⟨⟨_, _⟩, _⟩ <;> simp [memberTokens] <;> rfl

private theorem apart_append {first rest : List Token} (firstApart : first.IsChain Token.Apart)
    (restApart : rest.IsChain Token.Apart)
    (separates : ∀ token ∈ rest.head?, token.separates = true) :
    (first ++ rest).IsChain Token.Apart :=
  List.isChain_append.mpr
    ⟨firstApart, restApart, fun _ _ next isHead => .inr (separates next isHead)⟩

private theorem apart_cons {token : Token} {tokens : List Token}
    (endsItself : token.endsItself = true) (apart : tokens.IsChain Token.Apart) :
    (token :: tokens).IsChain Token.Apart :=
  List.isChain_cons.mpr ⟨fun _ _ => .inl endsItself, apart⟩

mutual

theorem tokens_apart (json : Json) : json.tokens.IsChain Token.Apart := by
  match json with
  | .null | .bool _ | .natural _ | .otherNumber _ | .text _ => exact .singleton _
  | .array [] => exact apart_cons rfl (.singleton _)
  | .array (item :: items) =>
      exact apart_cons rfl
        (apart_append (tokens_apart item) (itemTokens_apart items) (separates_itemTokens items))
  | .object [] => exact apart_cons rfl (.singleton _)
  | .object ((name, value) :: members) =>
      have contents := apart_append (tokens_apart value) (memberTokens_apart members)
        (separates_memberTokens members)
      exact apart_cons rfl (apart_cons rfl (apart_cons rfl contents))

theorem itemTokens_apart (items : List Json) : (itemTokens items).IsChain Token.Apart := by
  match items with
  | [] => exact .singleton _
  | item :: items =>
      exact apart_cons rfl
        (apart_append (tokens_apart item) (itemTokens_apart items) (separates_itemTokens items))

theorem memberTokens_apart (members : List (Option String × Json)) :
    (memberTokens members).IsChain Token.Apart := by
  match members with
  | [] => exact .singleton _
  | (name, value) :: members =>
      have contents := apart_append (tokens_apart value) (memberTokens_apart members)
        (separates_memberTokens members)
      exact apart_cons rfl (apart_cons rfl (apart_cons rfl contents))

end

/-! ## Assembling -/

namespace Reading

/-- The first token of a value does not end the array it may stand in. -/
private theorem tokens_begin (json : Json) :
    ∃ first rest, json.tokens = first :: rest ∧ first ≠ .closeArray := by
  match json with
  | .null | .bool _ | .natural _ | .otherNumber _ | .text _ => exact ⟨_, _, rfl, by simp⟩
  | .array [] | .array (_ :: _) => exact ⟨.openArray, _, by rw [tokens], by simp⟩
  | .object [] | .object ((_, _) :: _) => exact ⟨.openObject, _, by rw [tokens], by simp⟩

private theorem foldlM_firstItem (json : Json) (outer : List Waiting) :
    json.tokens.foldlM next? (.firstItem outer) =
      json.tokens.foldlM next? (.value (.array [] :: outer)) := by
  obtain ⟨first, rest, starts, notClosing⟩ := tokens_begin json
  rw [starts, List.foldlM_cons, List.foldlM_cons]
  cases first <;> first | rfl | exact absurd rfl notClosing

-- What is still open around a value is arbitrary, so the three hold by one induction on the value.
mutual

theorem foldlM_tokens (json : Json) (outer : List Waiting) :
    json.tokens.foldlM next? (.value outer) = some (complete json outer) := by
  match json with
  | .null | .bool _ | .natural _ | .otherNumber _ | .text _ => rfl
  | .array [] => rfl
  | .array (item :: items) =>
      have opened : next? (.value outer) .openArray = some (.firstItem outer) := rfl
      simp only [tokens, List.foldlM_cons, List.foldlM_append, opened, Option.bind_eq_bind,
        Option.bind_some, foldlM_firstItem, foldlM_tokens item]
      simpa [complete] using foldlM_itemTokens items [item] outer
  | .object [] => rfl
  | .object ((name, content) :: members) =>
      have opened : next? (.value outer) .openObject = some (.firstMember outer) := rfl
      have named : next? (.firstMember outer) (.text name) = some (.colon [] name outer) := rfl
      have colon : next? (.colon [] name outer) .colon =
          some (.value (.member [] name :: outer)) := rfl
      simp only [tokens, List.foldlM_cons, List.foldlM_append, opened, named, colon,
        Option.bind_eq_bind, Option.bind_some, foldlM_tokens content]
      simpa [complete] using foldlM_memberTokens members [(name, content)] outer

theorem foldlM_itemTokens (items before : List Json) (outer : List Waiting) :
    (itemTokens items).foldlM next? (.afterItem before outer) =
      some (complete (.array (before.reverse ++ items)) outer) := by
  match items with
  | [] => simp [itemTokens, next?]
  | item :: items =>
      have comma : next? (.afterItem before outer) .comma =
          some (.value (.array before :: outer)) := rfl
      simp only [itemTokens, List.foldlM_cons, List.foldlM_append, comma, Option.bind_eq_bind,
        Option.bind_some, foldlM_tokens item]
      simpa [complete] using foldlM_itemTokens items (item :: before) outer

theorem foldlM_memberTokens (members before : List (Option String × Json))
    (outer : List Waiting) :
    (memberTokens members).foldlM next? (.afterMember before outer) =
      some (complete (.object (before.reverse ++ members)) outer) := by
  match members with
  | [] => simp [memberTokens, next?]
  | (name, content) :: members =>
      have comma : next? (.afterMember before outer) .comma = some (.member before outer) := rfl
      have named : next? (.member before outer) (.text name) =
          some (.colon before name outer) := rfl
      have colon : next? (.colon before name outer) .colon =
          some (.value (.member before name :: outer)) := rfl
      simp only [memberTokens, List.foldlM_cons, List.foldlM_append, comma, named, colon,
        Option.bind_eq_bind, Option.bind_some, foldlM_tokens content]
      simpa [complete] using foldlM_memberTokens members ((name, content) :: before) outer

end

end Reading

theorem ofTokens?_tokens (json : Json) : ofTokens? json.tokens = some json := by
  simp [ofTokens?, Reading.foldlM_tokens, Reading.complete, Reading.json?]

/-- However it is laid out and spelled, a text of a value is read as the value, as far as readers
get. -/
theorem parse?_of_isText {text : String} {json : Json} (isText : IsText text json) :
    parse? text = some (json.within nestingLimit) := by
  have reads := (reads_of_spaced isText json.tokens_apart).1
  simp [parse?, reads.scan, ofTokens?_tokens]

theorem parse?_compact (json : Json) : parse? json.compact = some (json.within nestingLimit) :=
  parse?_of_isText (isText_compact json)

theorem parse?_indented (json : Json) : parse? json.indented = some (json.within nestingLimit) :=
  parse?_of_isText (isText_indented json)

end ReactiveReach.Json

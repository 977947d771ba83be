import Mathlib.Data.List.Chain
import ReactiveReach.Proofs.JsonGrammar

/-!
# Scanning the tokens of a text

A word or a number is only complete once something follows that it cannot go on with. So two
kinds of text are told apart: what may be scanned where a new token can begin, and what may also be
scanned right behind a word or a number, because it starts with a blank or a mark that ends them.
Tokens are scanned as they were spelled, with any blanks around them, as long as a mark follows
every word and every number.
-/

namespace ReactiveReach.Json

/-! ## Where a token may end -/

/-- The characters that no word and no number goes on with: blanks and the marks that follow a
value. -/
def isSeparator (c : Char) : Bool := [' ', '\t', '\n', '\r', ',', ':', ']', '}'].contains c

theorem Numeral.next?_separator (numeral : Numeral) {c : Char} (separates : isSeparator c = true) :
    numeral.next? c = none := by
  have isOne :
      c = ' ' ∨ c = '\t' ∨ c = '\n' ∨ c = '\r' ∨ c = ',' ∨ c = ':' ∨ c = ']' ∨ c = '}' := by
    simpa [isSeparator] using separates
  rcases isOne with rfl | rfl | rfl | rfl | rfl | rfl | rfl | rfl <;> cases numeral <;> rfl

/-- The scan has read these tokens, the last first, and may end: at most a word or a number, the
last of them, is open. -/
inductive Settled : Scanned → List Token → Prop
  | blank (tokens : List Token) : Settled ⟨tokens, .blank⟩ tokens
  | word (tokens : List Token) (token : Token) : Settled ⟨tokens, .word [] token⟩ (token :: tokens)
  | number {numeral : Numeral} {reversed : List Char} {token : Token} (tokens : List Token)
      (ends : numeral.token? reversed = some token) :
      Settled ⟨tokens, .number numeral reversed⟩ (token :: tokens)

namespace Settled

variable {scanned : Scanned} {tokens : List Token}

theorem finish (settled : Settled scanned tokens) : scanned.finish = some tokens.reverse := by
  cases settled with
  | blank => rfl
  | word => rfl
  | number _ ends => simp [Scanned.finish, ends]

theorem next?_separator (settled : Settled scanned tokens) {c : Char}
    (separates : isSeparator c = true) : scanned.next? c = Scanned.begin tokens c := by
  cases settled with
  | blank => rfl
  | word => rfl
  | number _ ends => simp [Scanned.next?, Numeral.next?_separator _ separates, ends]

end Settled

/-- Scanned where a token may begin, the characters give these tokens. -/
def Reads (chars : List Char) (tokens : List Token) : Prop :=
  ∀ before, ∃ scanned, chars.foldlM Scanned.next? ⟨before, .blank⟩ = some scanned ∧
    Settled scanned (tokens.reverse ++ before)

/-- Scanned behind any token, the characters give these tokens. -/
def Follows (chars : List Char) (tokens : List Token) : Prop :=
  ∀ scanned before, Settled scanned before →
    ∃ scanned', chars.foldlM Scanned.next? scanned = some scanned' ∧
      Settled scanned' (tokens.reverse ++ before)

theorem Reads.nil : Reads [] [] := fun before => ⟨⟨before, .blank⟩, rfl, .blank before⟩

theorem Reads.append {first rest : List Char} {tokens others : List Token}
    (reads : Reads first tokens) (follows : Follows rest others) :
    Reads (first ++ rest) (tokens ++ others) := by
  intro before
  obtain ⟨between, scannedFirst, settled⟩ := reads before
  obtain ⟨last, scannedRest, settledLast⟩ := follows between _ settled
  refine ⟨last, ?_, ?_⟩
  · rw [List.foldlM_append, scannedFirst]
    exact scannedRest
  · simpa [List.reverse_append, List.append_assoc] using settledLast

/-- What ends with whole tokens, before what follows it. -/
theorem Reads.after {first chars : List Char} {tokens : List Token} (produced : List Token)
    (scanned : ∀ before, first.foldlM Scanned.next? ⟨before, .blank⟩ =
      some ⟨produced.reverse ++ before, .blank⟩)
    (reads : Reads chars tokens) : Reads (first ++ chars) (produced ++ tokens) := by
  intro before
  obtain ⟨last, result, settled⟩ := reads (produced.reverse ++ before)
  refine ⟨last, ?_, ?_⟩
  · rw [List.foldlM_append, scanned before]
    exact result
  · simpa [List.reverse_append, List.append_assoc] using settled

theorem Reads.cons (c : Char) {chars : List Char} {tokens : List Token} (produced : List Token)
    (begins : ∀ before, Scanned.begin before c = some ⟨produced.reverse ++ before, .blank⟩)
    (reads : Reads chars tokens) : Reads (c :: chars) (produced ++ tokens) := by
  have scanned (before : List Token) :
      [c].foldlM Scanned.next? ⟨before, .blank⟩ = some ⟨produced.reverse ++ before, .blank⟩ := by
    simp [Scanned.next?, begins before]
  exact reads.after produced scanned

theorem Follows.cons (c : Char) {chars : List Char} {tokens : List Token} (produced : List Token)
    (separates : isSeparator c = true)
    (begins : ∀ before, Scanned.begin before c = some ⟨produced.reverse ++ before, .blank⟩)
    (reads : Reads chars tokens) : Follows (c :: chars) (produced ++ tokens) := by
  intro scanned before settled
  obtain ⟨last, result, settledLast⟩ := Reads.cons c produced begins reads before
  refine ⟨last, ?_, settledLast⟩
  rw [List.foldlM_cons, settled.next?_separator separates]
  rwa [List.foldlM_cons] at result

theorem begin_blank {c : Char} (isBlank : c = ' ' ∨ c = '\t' ∨ c = '\n' ∨ c = '\r')
    (before : List Token) : Scanned.begin before c = some ⟨before, .blank⟩ := by
  rcases isBlank with rfl | rfl | rfl | rfl <;> rfl

theorem Reads.blanks {blanks chars : List Char} {tokens : List Token}
    (areBlank : AreBlank blanks) (reads : Reads chars tokens) : Reads (blanks ++ chars) tokens := by
  induction blanks with
  | nil => exact reads
  | cons c blanks ih =>
      rw [AreBlank, List.forall_mem_cons] at areBlank
      exact .cons c [] (begin_blank areBlank.1) (ih areBlank.2)

theorem Follows.nil : Follows [] [] := fun scanned _ settled => ⟨scanned, rfl, settled⟩

theorem Follows.blanks {blanks chars : List Char} {tokens : List Token}
    (areBlank : AreBlank blanks) (reads : Reads chars tokens) (follows : Follows chars tokens) :
    Follows (blanks ++ chars) tokens := by
  cases blanks with
  | nil => exact follows
  | cons c blanks =>
      rw [AreBlank, List.forall_mem_cons] at areBlank
      have separates : isSeparator c = true := by
        rcases areBlank.1 with rfl | rfl | rfl | rfl <;> rfl
      exact .cons c [] separates (begin_blank areBlank.1) (reads.blanks areBlank.2)

theorem Reads.scan {chars : List Char} {tokens : List Token} (reads : Reads chars tokens) :
    Json.scan chars = some tokens := by
  obtain ⟨scanned, result, settled⟩ := reads []
  simp only [Json.scan, Scanned.start, result]
  simpa using settled.finish

/-! ## Strings -/

namespace Content

/-- Adds what a part of the string stands for. -/
def pushPiece (content : Content) : Piece → Content
  | .char c => content.push c
  | .unit value => content.pushUnit value

private theorem pushUnit_alone {reversed : Option (List Char)} {value : Nat} :
    pushUnit ⟨reversed, none⟩ value =
      if Piece.isLow value then ⟨none, none⟩
      else if Piece.isHigh value then ⟨reversed, some value⟩
      else ⟨reversed.map (Char.ofNat value :: ·), none⟩ := by
  simp only [pushUnit, push, Piece.isLow, Piece.isHigh, Bool.and_eq_true, decide_eq_true_eq]
  split <;> split <;> first | rfl | omega

private theorem pushUnit_paired {reversed : Option (List Char)} {high value : Nat} :
    pushUnit ⟨reversed, some high⟩ value =
      if Piece.isLow value then
        ⟨reversed.map
          (Char.ofNat (0x10000 + (high - 0xD800) * 0x400 + (value - 0xDC00)) :: ·), none⟩
      else ⟨none, none⟩ := by
  simp only [pushUnit, Piece.isLow, Bool.and_eq_true, decide_eq_true_eq]

/-- Once half of a pair stood alone, nothing mends the content. -/
private theorem finish_spoiled {pieces : List Piece} {high : Option Nat} :
    (pieces.foldl pushPiece ⟨none, high⟩).finish = none := by
  induction pieces generalizing high with
  | nil => cases high <;> rfl
  | cons piece pieces ih =>
      have spoiled : ∃ next, pushPiece ⟨none, high⟩ piece = ⟨none, next⟩ := by
        cases piece <;> cases high
        · exact ⟨_, rfl⟩
        · exact ⟨_, rfl⟩
        · rw [pushPiece, pushUnit_alone]
          split
          · exact ⟨_, rfl⟩
          · split <;> exact ⟨_, rfl⟩
        · rw [pushPiece, pushUnit_paired]
          split <;> exact ⟨_, rfl⟩
      obtain ⟨next, pushed⟩ := spoiled
      rw [List.foldl_cons, pushed, ih]

/-- The parts of a string are put together as the grammar says. -/
private theorem finish_pieces (pieces : List Piece) (reversed : List Char) :
    (pieces.foldl pushPiece ⟨some reversed, none⟩).finish =
      (Piece.decode pieces).map fun chars => String.ofList (reversed.reverse ++ chars) := by
  induction pieces using Piece.decode.induct generalizing reversed with
  | case1 => simp [Piece.decode, finish]
  | case2 c rest ih =>
      have pushed : pushPiece ⟨some reversed, none⟩ (.char c) = ⟨some (c :: reversed), none⟩ := rfl
      rw [List.foldl_cons, pushed, ih, Piece.decode, Option.map_map]
      simp [Function.comp_def]
  | case3 value rest isLow =>
      rw [List.foldl_cons, pushPiece, pushUnit_alone, if_pos isLow, finish_spoiled,
        Piece.decode_low isLow, Option.map_none]
  | case4 high notLow isHigh low rest isLow ih =>
      rw [List.foldl_cons, pushPiece, pushUnit_alone, if_neg notLow, if_pos isHigh, List.foldl_cons,
        pushPiece, pushUnit_paired, if_pos isLow, Option.map_some, ih, Piece.decode, if_neg notLow,
        if_pos isHigh, if_pos isLow, Option.map_map]
      simp [Function.comp_def]
  | case5 high notLow isHigh unit rest unpaired =>
      rw [List.foldl_cons, pushPiece, pushUnit_alone, if_neg notLow, if_pos isHigh, List.foldl_cons,
        pushPiece, pushUnit_paired, if_neg unpaired, finish_spoiled, Piece.decode, if_neg notLow,
        if_pos isHigh, if_neg unpaired, Option.map_none]
  | case6 high rest notLow isHigh noUnit =>
      rw [List.foldl_cons, pushPiece, pushUnit_alone, if_neg notLow, if_pos isHigh]
      rcases rest with _ | ⟨c | low, rest⟩
      · simp [Piece.decode, finish, notLow, isHigh]
      · rw [List.foldl_cons, Piece.decode, if_neg notLow, if_pos isHigh]
        · exact finish_spoiled
        · simp
      · exact absurd rfl (noUnit low rest)
  | case7 value rest notLow notHigh ih =>
      rw [List.foldl_cons, pushPiece, pushUnit_alone, if_neg notLow, if_neg notHigh,
        Option.map_some, ih, Piece.decode_plain notLow notHigh, Option.map_map]
      simp [Function.comp_def]

end Content

private theorem foldlM_piece {piece : Piece} {chars : List Char} (spelled : piece.Spelled chars)
    (tokens : List Token) (content : Content) :
    chars.foldlM Scanned.next? ⟨tokens, .string content⟩ =
      some ⟨tokens, .string (content.pushPiece piece)⟩ := by
  cases spelled with
  | plain noQuote noBackslash visible =>
      simp [Scanned.next?, Scanned.inString, noQuote, noBackslash, Nat.not_lt.mpr visible,
        Content.pushPiece]
  | @letter letter c stands =>
      have notUnit : letter ≠ 'u' := by rintro rfl; cases stands
      simp [Scanned.next?, Scanned.inString, Scanned.inEscape, notUnit, stands, Content.pushPiece]
  | unit first second third fourth =>
      simp [Scanned.next?, Scanned.inString, Scanned.inEscape, first, second, third, fourth,
        Content.pushPiece]

private theorem foldlM_pieces {pieces : List Piece} {spellings : List (List Char)}
    (spelled : List.Forall₂ Piece.Spelled pieces spellings) (tokens : List Token)
    (content : Content) :
    spellings.flatten.foldlM Scanned.next? ⟨tokens, .string content⟩ =
      some ⟨tokens, .string (pieces.foldl Content.pushPiece content)⟩ := by
  induction spelled generalizing content with
  | nil => rfl
  | cons first rest ih =>
      rw [List.flatten_cons, List.foldlM_append, foldlM_piece first]
      exact ih _

private theorem foldlM_text {pieces : List Piece} {spellings : List (List Char)}
    (spelled : List.Forall₂ Piece.Spelled pieces spellings) (before : List Token) :
    ('"' :: spellings.flatten ++ ['"']).foldlM Scanned.next? ⟨before, .blank⟩ =
      some ⟨.text ((Piece.decode pieces).map String.ofList) :: before, .blank⟩ := by
  have opened : Scanned.next? ⟨before, .blank⟩ '"' = some ⟨before, .string .empty⟩ := rfl
  have content := Content.finish_pieces pieces []
  rw [List.cons_append, List.foldlM_cons, opened, Option.bind_eq_bind, Option.bind_some,
    List.foldlM_append, foldlM_pieces spelled]
  simp [Scanned.next?, Scanned.inString, Content.empty, content]

/-! ## Words and numbers -/

private theorem begin_of_start? {c : Char} {numeral : Numeral}
    (starts : Numeral.start? c = some numeral) (tokens : List Token) :
    Scanned.begin tokens c = some ⟨tokens, .number numeral [c]⟩ := by
  unfold Scanned.begin
  split
  all_goals first
    | simp only [starts, Option.map_some]
    | exact absurd starts (by simp [Numeral.start?, Digits.value?])

private theorem foldlM_numeral {rest : List Char} {numeral last : Numeral}
    (goesOn : rest.foldlM Numeral.next? numeral = some last) (tokens : List Token)
    (reversed : List Char) :
    rest.foldlM Scanned.next? ⟨tokens, .number numeral reversed⟩ =
      some ⟨tokens, .number last (rest.reverse ++ reversed)⟩ := by
  induction rest generalizing numeral reversed with
  | nil =>
      have same : numeral = last := by simpa using goesOn
      simp [same]
  | cons c rest ih =>
      rw [List.foldlM_cons] at goesOn
      obtain ⟨longer, next, goesOn⟩ := Option.bind_eq_some_iff.mp goesOn
      rw [List.foldlM_cons]
      simpa [Scanned.next?, next] using ih goesOn (c :: reversed)

private theorem reads_number {spelling : List Char} {numeral : Numeral} {token : Token}
    (spelled : Numeral.ofChars? spelling = some numeral)
    (ends : numeral.token? spelling.reverse = some token) : Reads spelling [token] := by
  intro before
  cases spelling with
  | nil => simp [Numeral.ofChars?] at spelled
  | cons c rest =>
      obtain ⟨first, starts, goesOn⟩ := Option.bind_eq_some_iff.mp spelled
      refine ⟨⟨before, .number numeral (c :: rest).reverse⟩, ?_, .number before ends⟩
      rw [List.foldlM_cons, Scanned.next?, begin_of_start? starts]
      simpa using foldlM_numeral goesOn before [c]

theorem WrittenNumber.token?_numeral (number : WrittenNumber) :
    number.numeral.token? number.chars.reverse = some number.token := by
  rw [Numeral.token?, natural?_numeral]
  cases natural : number.isNatural with
  | true => simp [token, natural]
  | false => simp [token, natural, OtherNumber.ofChars?, number.valid natural]

/-! ## Texts -/

private theorem begin_of_mark? {token : Token} {c : Char} (marks : token.mark? = some c)
    (before : List Token) : Scanned.begin before c = some ⟨token :: before, .blank⟩ := by
  cases token <;> cases marks <;> rfl

/-- A token is scanned as it was spelled. -/
theorem reads_of_spelled {token : Token} {chars : List Char} (spelled : token.Spelled chars) :
    Reads chars [token] := by
  cases spelled with
  | mark marks => exact .cons _ [token] (begin_of_mark? marks) .nil
  | null => exact fun before => ⟨⟨before, .word [] .null⟩, rfl, .word before .null⟩
  | true => exact fun before => ⟨⟨before, .word [] (.bool true)⟩, rfl, .word before _⟩
  | false => exact fun before => ⟨⟨before, .word [] (.bool false)⟩, rfl, .word before _⟩
  | number number => exact reads_number (Numeral.ofChars?_chars number) number.token?_numeral
  | text pieces => exact fun before => ⟨_, foldlM_text pieces before, .blank _⟩

namespace Token

/-- Marks and strings end by themselves, words and numbers where something ends them. -/
def endsItself : Token → Bool
  | null | bool _ | natural _ | otherNumber _ => false
  | openObject | closeObject | openArray | closeArray | colon | comma | text _ => true

/-- Marks that end the word or number before them. -/
def separates (token : Token) : Bool := token.mark?.any isSeparator

/-- Tokens of which the second can be told from the first without a blank between them. -/
def Apart (token next : Token) : Prop := token.endsItself = true ∨ next.separates = true

end Token

theorem WrittenNumber.endsItself_token (number : WrittenNumber) :
    number.token.endsItself = false := by
  unfold token
  split <;> rfl

theorem WrittenNumber.mark?_token (number : WrittenNumber) : number.token.mark? = none := by
  unfold token
  split <;> rfl

private theorem eq_mark_of_spelled {token : Token} {c : Char} {chars : List Char}
    (marks : token.mark? = some c) (spelled : token.Spelled chars) : chars = [c] := by
  cases spelled with
  | mark same => rw [Option.some.inj (same.symm.trans marks)]
  | null | true | false | text => cases marks
  | number number =>
      rw [number.mark?_token] at marks
      cases marks

private theorem scanned_of_endsItself {token : Token} {chars : List Char}
    (spelled : token.Spelled chars) (endsItself : token.endsItself = true) (before : List Token) :
    chars.foldlM Scanned.next? ⟨before, .blank⟩ = some ⟨[token].reverse ++ before, .blank⟩ := by
  cases spelled with
  | mark marks => simp [Scanned.next?, begin_of_mark? marks]
  | null | true | false => cases endsItself
  | number number =>
      rw [number.endsItself_token] at endsItself
      cases endsItself
  | text pieces => exact foldlM_text pieces before

/-- Tokens with any blanks around them are scanned, behind any token if a mark comes first. -/
theorem reads_of_spaced {tokens : List Token} {chars : List Char} (spaced : Spaced tokens chars)
    (apart : tokens.IsChain Token.Apart) :
    Reads chars tokens ∧
      ((∀ token ∈ tokens.head?, token.separates = true) → Follows chars tokens) := by
  induction spaced with
  | @nil blanks areBlank =>
      have alone := Follows.blanks areBlank .nil .nil
      have reads := Reads.nil.blanks areBlank
      rw [List.append_nil] at alone reads
      exact ⟨reads, fun _ => alone⟩
  | @cons blanks chars rest token tokens areBlank spelled spaced ih =>
      rw [List.isChain_cons] at apart
      obtain ⟨apartNext, apart⟩ := apart
      obtain ⟨readsRest, followsRest⟩ := ih apart
      have onward : Reads (chars ++ rest) (token :: tokens) := by
        by_cases endsItself : token.endsItself = true
        · exact readsRest.after [token] (scanned_of_endsItself spelled endsItself)
        · have separated := fun next isNext => (apartNext next isNext).resolve_left endsItself
          exact (reads_of_spelled spelled).append (followsRest separated)
      rw [List.append_assoc]
      refine ⟨onward.blanks areBlank, fun isMark => .blanks areBlank onward ?_⟩
      obtain ⟨c, marks, separates⟩ := (Option.any_eq_true _ _).mp (isMark token rfl)
      rw [eq_mark_of_spelled marks spelled]
      exact .cons c [token] separates (begin_of_mark? marks) readsRest

end ReactiveReach.Json

import ReactiveReach.Json.Token

/-!
# Reading JSON

Tokens are assembled into a value by an automaton with a stack of the arrays and objects that are
still open. A text is read only if it holds one value and nothing else but blanks. A reader can open
127 arrays and objects inside each other; what is nested deeper can only be skipped, and that at any
depth.
-/

namespace ReactiveReach.Json

/-- An open array or object that waits for a value. What it holds already is last first. -/
inductive Waiting where
  | array (items : List Json)
  | member (members : List (Option String × Json)) (name : Option String)

/-- What may come next, and inside which open arrays and objects, the innermost first. -/
inductive Reading where
  | value (outer : List Waiting)
  /-- After the bracket that opens an array. -/
  | firstItem (outer : List Waiting)
  /-- After the brace that opens an object. -/
  | firstMember (outer : List Waiting)
  /-- After a comma in an object. -/
  | member (members : List (Option String × Json)) (outer : List Waiting)
  /-- After the name of a member. -/
  | colon (members : List (Option String × Json)) (name : Option String) (outer : List Waiting)
  | afterItem (items : List Json) (outer : List Waiting)
  | afterMember (members : List (Option String × Json)) (outer : List Waiting)
  | done (json : Json)

namespace Reading

/-- Hands a complete value to what waits for it. -/
def complete (json : Json) : List Waiting → Reading
  | [] => .done json
  | .array items :: outer => .afterItem (json :: items) outer
  | .member members name :: outer => .afterMember ((name, json) :: members) outer

/-- Reads the first token of a value. -/
def begin (outer : List Waiting) : Token → Option Reading
  | .null => some (complete .null outer)
  | .bool truth => some (complete (.bool truth) outer)
  | .natural number => some (complete (.natural number) outer)
  | .otherNumber number => some (complete (.otherNumber number) outer)
  | .text content => some (complete (.text content) outer)
  | .openArray => some (.firstItem outer)
  | .openObject => some (.firstMember outer)
  | .closeArray | .closeObject | .colon | .comma => none

/-- Reads one token. -/
def next? : Reading → Token → Option Reading
  | .value outer, token => begin outer token
  | .firstItem outer, .closeArray => some (complete (.array []) outer)
  | .firstItem outer, token => begin (.array [] :: outer) token
  | .firstMember outer, .closeObject => some (complete (.object []) outer)
  | .firstMember outer, .text name => some (.colon [] name outer)
  | .member members outer, .text name => some (.colon members name outer)
  | .colon members name outer, .colon => some (.value (.member members name :: outer))
  | .afterItem items outer, .comma => some (.value (.array items :: outer))
  | .afterItem items outer, .closeArray => some (complete (.array items.reverse) outer)
  | .afterMember members outer, .comma => some (.member members outer)
  | .afterMember members outer, .closeObject => some (complete (.object members.reverse) outer)
  | _, _ => none

/-- The value read, if it is complete. -/
def json? : Reading → Option Json
  | .done json => some json
  | _ => none

end Reading

def ofTokens? (tokens : List Token) : Option Json := do
  (← tokens.foldlM Reading.next? (.value [])).json?

/-- How many arrays and objects a reader can open inside each other. -/
def nestingLimit : Nat := 127

/-- The value of a text, as far as readers get. -/
def parse? (text : String) : Option Json := do
  return (← ofTokens? (← scan text.toList)).within nestingLimit

end ReactiveReach.Json

/-
  Reading JSON: strictly by its grammar, one token at a time. The reader keeps the containers
  whose end has not come, the innermost first, each with its parts in reverse order.
-/
import PropCalc.Json.Token

namespace PropCalc.Json

/-- A container whose end has not come. -/
inductive Frame
  | arr (items : List Json)
  | obj (entries : List (Option String × Json))
  /-- An object after the name and the colon of its next entry. -/
  | entry (entries : List (Option String × Json)) (name : Option String)

/-- The reader between two tokens. -/
inductive Reading
  /-- A value must come. -/
  | value (frames : List Frame)
  /-- A container has just been opened: its first part or its end must come. -/
  | opened (frames : List Frame)
  /-- A part has just been read: a comma or the end of its container must come. -/
  | filled (frames : List Frame)
  /-- After a comma another part must come. -/
  | another (frames : List Frame)
  /-- After the name of an entry a colon must come. -/
  | named (entries : List (Option String × Json)) (name : Option String) (frames : List Frame)
  /-- The value is complete. -/
  | done (value : Json)

namespace Reading

/-- Puts a value where one was awaited. -/
def put (v : Json) : List Frame → Option Reading
  | [] => some (done v)
  | .arr items :: frames => some (filled (.arr (v :: items) :: frames))
  | .entry entries name :: frames => some (filled (.obj ((name, v) :: entries) :: frames))
  | .obj _ :: _ => none

/-- Starts a value. -/
def beginValue (frames : List Frame) : Token → Option Reading
  | .openArr => some (opened (.arr [] :: frames))
  | .openObj => some (opened (.obj [] :: frames))
  | .null => put .null frames
  | .bool b => put (.bool b) frames
  | .num n => put (.num n) frames
  | .str s => put (.str s) frames
  | _ => none

/-- Starts a part of the innermost container. -/
def beginPart : List Frame → Token → Option Reading
  | .arr items :: frames, t => beginValue (.arr items :: frames) t
  | .obj entries :: frames, .str name => some (named entries name frames)
  | _, _ => none

/-- Ends the innermost container. -/
def close : List Frame → Token → Option Reading
  | .arr items :: frames, .closeArr => put (.arr items.reverse) frames
  | .obj entries :: frames, .closeObj => put (.obj entries.reverse) frames
  | _, _ => none

/-- The state after a token, or `none` if the token cannot stand here. -/
def step : Reading → Token → Option Reading
  | value frames, t => beginValue frames t
  | opened frames, t => (close frames t).or (beginPart frames t)
  | filled frames, .comma => some (another frames)
  | filled frames, t => close frames t
  | another frames, t => beginPart frames t
  | named entries name frames, .colon => some (value (.entry entries name :: frames))
  | named .., _ => none
  | done _, _ => none

/-- Takes all tokens. -/
def run (s : Reading) (ts : List Token) : Option Reading := ts.foldlM step s

end Reading

/-- The value that tokens spell. -/
def ofTokens (ts : List Token) : Option Json :=
  match Reading.run (.value []) ts with
  | some (.done v) => some v
  | _ => none

/-- Reads a value from characters. -/
def ofChars (cs : List Char) : Option Json := (scan 0 cs).bind ofTokens

/-- Reads a value. -/
def parse (text : String) : Option Json := ofChars text.toList

end PropCalc.Json

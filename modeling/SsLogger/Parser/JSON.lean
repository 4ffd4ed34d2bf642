import SsLogger.Parser.Strtod

set_option autoImplicit false

/-! # `JSON::Parse`

The parser reads a `std::stringstream`; it is modelled on the list of characters not yet read.
`peek()` at the end of the stream gives `EOF`, which matches no character the parser looks for.

`ParseObject` does not read its members' values from its own stream: it hands the rest of the
stream to a fresh `Parse` (`ss.str().substr(ss.tellg())`) and leaves its own position where the
value starts. It then finds the next member by skipping to the next `,`, wherever that is. `Parse`
returns only the value, so nothing downstream of a value sees where its text ended.

A call can end four ways (`Outcome`): with a value, with an exception, never (`ParseString` at
the end of the stream waits for a `"` that `peek()` never returns), or in undefined behaviour
(reading a `JSON`'s `double` that no constructor set). A number is the `double` `std::stod` makes
of it (`SsLogger.Parser.Strtod`), kept as its exact value. -/

namespace SsLogger.Parser

/-! ## Outcomes -/

/-- The exceptions the parser and `Config` can throw: `std::runtime_error` with its message,
`std::out_of_range` (from `std::string::substr`, `std::unordered_map::at` or `std::stod`) and
`std::invalid_argument` (from `std::stod`). -/
inductive Exception where
  | runtimeError (what : List Char)
  | outOfRange
  | invalidArgument
  deriving DecidableEq, Repr

/-- The message of every `std::runtime_error` the parser throws. -/
def invalidJSONInput : List Char := "Invalid JSON input".toList

/-- How a call ends: it returns, throws, never returns, or has undefined behaviour. -/
inductive Outcome (α : Type) where
  | ok (a : α)
  | throw (e : Exception)
  | hang
  | undefined
  deriving DecidableEq, Repr

/-- Run `f` on the value; an exception, a hang or undefined behaviour propagates. -/
def Outcome.bind {α β : Type} : Outcome α → (α → Outcome β) → Outcome β
  | .ok a, f => f a
  | .throw e, _ => .throw e
  | .hang, _ => .hang
  | .undefined, _ => .undefined

@[simp] theorem Outcome.ok_bind {α β : Type} (a : α) (f : α → Outcome β) :
    (Outcome.ok a).bind f = f a := rfl

/-! ## Values -/

/-- `JSON::Type`. -/
inductive JSONType where
  | object
  | string
  | number
  | bool
  | nil
  deriving DecidableEq, Repr

/-- The `JSON` values the parser builds: an object's `m_object_value` as a list of members with
distinct keys, in no particular order. -/
inductive JSON where
  | object (members : List (List Char × JSON))
  | string (s : List Char)
  | number (d : Decimal)
  | bool (b : Bool)
  | nil
  deriving Repr

namespace JSON

/-- `get_type()`. -/
def getType : JSON → JSONType
  | .object _ => .object
  | .string _ => .string
  | .number _ => .number
  | .bool _ => .bool
  | .nil => .nil

/-- `get_object_value()`: the members; the map no constructor but `JSON(OBJECT)` fills is
empty. -/
def getObjectValue : JSON → List (List Char × JSON)
  | .object ms => ms
  | _ => []

/-- `get_string_value()`: `m_str_value`, empty unless the value is a string. -/
def getStringValue : JSON → List Char
  | .string s => s
  | _ => []

/-- `get_number_value()`: `m_num_value`, which only `JSON(double)` initialises. -/
def getNumberValue : JSON → Outcome Decimal
  | .number d => .ok d
  | _ => .undefined

end JSON

/-- `m_object_value[key] = value`: an existing key's value is replaced, a new key is added. -/
def insertMember (k : List Char) (v : JSON) : List (List Char × JSON) → List (List Char × JSON)
  | [] => [(k, v)]
  | (k', v') :: ms => if k' = k then (k, v) :: ms else (k', v') :: insertMember k v ms

/-- `count(key)` and `at(key)` of an `unordered_map`. -/
def lookupMember (k : List Char) : List (List Char × JSON) → Option JSON
  | [] => none
  | (k', v) :: ms => if k' = k then some v else lookupMember k ms

/-! ## Scanning the stream -/

/-- The characters `SkipWhitespace` skips. -/
def isSpace (c : Char) : Bool := c = ' ' || c = '\n' || c = '\t' || c = '\r'

/-- `SkipWhitespace`. -/
def skipWhitespace (cs : List Char) : List Char := cs.dropWhile isSpace

/-- `ParseString`: drop one character (the opening quote), read up to the next `"`, and drop it;
the value and the rest of the stream. `none` at the end of the stream, where the loop never
ends. -/
def parseString (cs : List Char) : Option (List Char × List Char) :=
  match (cs.drop 1).span (· != '"') with
  | (v, _ :: rest) => some (v, rest)
  | (_, []) => none

/-- `std::stod`: `std::invalid_argument` where `strtod` reads nothing, `std::out_of_range` where
it sets `ERANGE`, and otherwise the `double` it reads. -/
def stod (cs : List Char) : Outcome Decimal :=
  match readDecimal cs with
  | none => .throw .invalidArgument
  | some d =>
    match roundToDouble d with
    | none => .throw .outOfRange
    | some x => .ok x

/-- The characters `ParseNumber` reads. -/
def isNumberChar (c : Char) : Bool := c.isDigit || c = '.' || c = '-'

/-- `ParseNumber`. -/
def parseNumber (cs : List Char) : Outcome JSON :=
  (stod (cs.takeWhile isNumberChar)).bind fun d => .ok (.number d)

/-- `ParseBool`: the letters at the front must spell `true` or `false`. -/
def parseBool (cs : List Char) : Outcome JSON :=
  let v := cs.takeWhile Char.isAlpha
  if v = "true".toList then .ok (.bool true)
  else if v = "false".toList then .ok (.bool false)
  else .throw (.runtimeError invalidJSONInput)

/-- `ParseNull`: the letters at the front must spell `null`. -/
def parseNull (cs : List Char) : Outcome JSON :=
  if cs.takeWhile Char.isAlpha = "null".toList then .ok .nil
  else .throw (.runtimeError invalidJSONInput)

/-! ## Objects -/

/-- Where `ParseObject`'s loop looks for a member: at once for the first one, otherwise after the
next `,` (`none`: the stream ends first, and the loop breaks). -/
def nextMember (first : Bool) (cs : List Char) : Option (List Char) :=
  if first then some cs
  else
    match cs.dropWhile (· != ',') with
    | [] => none
    | _ :: r => some r

/-- A member's key, read by `ParseString`, and the stream after the `:` and the whitespace around
it, where the value is parsed from (`none`: `ParseString` never returns). -/
def memberHead (cs : List Char) : Option (List Char × List Char) :=
  (parseString (skipWhitespace cs)).map fun kr => (kr.1, skipWhitespace ((skipWhitespace kr.2).drop 1))

/-- The end of a loop iteration: skip whitespace, and a `,` with the whitespace after it. -/
def afterValue (cs : List Char) : List Char :=
  match skipWhitespace cs with
  | ',' :: r => skipWhitespace r
  | r => r

mutual

/-- `JSON::Parse`, with `fuel` bounding the recursion; any fuel above the length of the text gives
the same outcome (`parseFuel_eq`). -/
def parseFuel : Nat → List Char → Outcome JSON
  | 0, _ => .hang
  | fuel + 1, cs =>
    match skipWhitespace cs with
    -- `ParseObject`: `ss.get()` takes the `{`
    | '{' :: r => objectLoop fuel true [] (skipWhitespace r)
    | '"' :: r =>
      match parseString ('"' :: r) with
      | some (v, _) => .ok (.string v)
      | none => .hang
    | c :: r =>
      if c.isDigit || c = '-' then parseNumber (c :: r)
      else if c = 't' || c = 'f' then parseBool (c :: r)
      else if c = 'n' then parseNull (c :: r)
      else .throw (.runtimeError invalidJSONInput)
    | [] => .throw (.runtimeError invalidJSONInput)

/-- The `while (ss.peek() != '}')` loop of `ParseObject`, from its check: `first` is `firstItem`,
`obj` the members so far, `cs` the unread stream. The value is parsed from the rest of the stream
(`tellg()` is `-1` once the stream is empty, and `substr` throws), and the loop goes on from where
the value starts. -/
def objectLoop : Nat → Bool → List (List Char × JSON) → List Char → Outcome JSON
  | 0, _, _, _ => .hang
  | fuel + 1, first, obj, cs =>
    if cs.head? = some '}' then .ok (.object obj)
    else
      match nextMember first cs with
      | none => .ok (.object obj)
      | some cs =>
        match memberHead cs with
        | none => .hang
        | some (key, r) =>
          if r = [] then .throw .outOfRange
          else (parseFuel fuel r).bind fun v => objectLoop fuel false (insertMember key v obj) (afterValue r)

end

/-- `JSON::Parse(content)`. -/
def JSON.parse (content : List Char) : Outcome JSON :=
  parseFuel (content.length + 1) content

/-! ## Enough fuel

Every call of `parseFuel` and every turn of `objectLoop` reads on a stream shorter than the one
before: a member's key takes at least one character. So fuel above the length of the text never
runs out, and any such fuel gives `JSON::Parse`'s outcome. -/

theorem skipWhitespace_length_le (cs : List Char) : (skipWhitespace cs).length ≤ cs.length :=
  (List.dropWhile_suffix _).length_le

theorem parseString_length {cs v r : List Char} (h : parseString cs = some (v, r)) :
    r.length < cs.length := by
  unfold parseString at h
  split at h
  · rename_i v' c rest heq
    cases h
    rw [List.span_eq_take_drop] at heq
    have hs : (c :: r).length ≤ (cs.drop 1).length := by
      rw [← (Prod.mk.inj heq).2]
      exact (List.dropWhile_suffix _).length_le
    simp only [List.length_cons, List.length_drop] at hs
    omega
  · cases h

theorem nextMember_length {first : Bool} {cs cs' : List Char} (h : nextMember first cs = some cs') :
    cs'.length ≤ cs.length := by
  unfold nextMember at h
  split at h
  · cases h; exact le_rfl
  · split at h
    · cases h
    · rename_i c r heq
      cases h
      have := (List.dropWhile_suffix (l := cs) (· != ',')).length_le
      rw [heq, List.length_cons] at this
      omega

theorem memberHead_length {cs key r : List Char} (h : memberHead cs = some (key, r)) :
    r.length < cs.length := by
  unfold memberHead at h
  obtain ⟨⟨k, r'⟩, hs, he⟩ := Option.map_eq_some'.1 h
  cases he
  show (skipWhitespace ((skipWhitespace r').drop 1)).length < cs.length
  have h1 := parseString_length hs
  have h2 := skipWhitespace_length_le cs
  have h3 := skipWhitespace_length_le r'
  have h4 := skipWhitespace_length_le (((skipWhitespace r').drop 1))
  simp only [List.length_drop] at h4
  omega

theorem afterValue_length_le (cs : List Char) : (afterValue cs).length ≤ cs.length := by
  unfold afterValue
  have h := skipWhitespace_length_le cs
  split
  · rename_i r heq
    have := skipWhitespace_length_le r
    rw [heq, List.length_cons] at h
    omega
  · exact h

/-- Fuel above the length of the stream gives the same outcome, for `parseFuel` and for
`objectLoop` alike. -/
theorem fuel_irrelevant : ∀ n,
    (∀ m cs, cs.length < n → cs.length < m → parseFuel n cs = parseFuel m cs) ∧
    (∀ m first obj cs, cs.length < n → cs.length < m →
      objectLoop n first obj cs = objectLoop m first obj cs)
  | 0 => ⟨fun _ _ h => absurd h (Nat.not_lt_zero _), fun _ _ _ _ h => absurd h (Nat.not_lt_zero _)⟩
  | n + 1 => by
    obtain ⟨ihp, ihl⟩ := fuel_irrelevant n
    refine ⟨fun m cs hn hm => ?_, fun m first obj cs hn hm => ?_⟩
    · obtain ⟨m, rfl⟩ : ∃ k, m = k + 1 := ⟨m - 1, by omega⟩
      simp only [parseFuel]
      split
      · rename_i r heq
        have h1 := skipWhitespace_length_le cs
        have h2 := skipWhitespace_length_le r
        rw [heq, List.length_cons] at h1
        exact ihl m true [] _ (by omega) (by omega)
      all_goals rfl
    · obtain ⟨m, rfl⟩ : ∃ k, m = k + 1 := ⟨m - 1, by omega⟩
      simp only [objectLoop]
      split_ifs with hc
      · rfl
      split
      · rfl
      rename_i cs' hnext
      split
      · rfl
      rename_i key r hhead
      split_ifs with hr
      · rfl
      have h1 := nextMember_length hnext
      have h2 := memberHead_length hhead
      have h3 := afterValue_length_le r
      rw [ihp m r (by omega) (by omega)]
      congr 1
      funext v
      exact ihl m false _ _ (by omega) (by omega)

/-- `JSON::Parse` is `parseFuel` at any fuel above the length of the text. -/
theorem parseFuel_eq {n : Nat} {content : List Char} (h : content.length < n) :
    parseFuel n content = JSON.parse content :=
  (fuel_irrelevant n).1 _ _ h (Nat.lt_succ_self _)

end SsLogger.Parser

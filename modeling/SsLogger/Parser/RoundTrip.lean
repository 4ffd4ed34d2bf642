import SsLogger.Parser.JSON
import Mathlib.Data.List.Nodup

set_option autoImplicit false

/-! # Parsing a rendered value

The values the round trip is about are objects with distinct keys, strings with no `"` or `\`,
integers written as an optional `-` and decimal digits, `true`, `false` and `null`; `render`
writes one compactly, and `agrees` compares it with a parsed `JSON`: the same type, the same
string, number value and boolean, and for objects the same keys with agreeing values.

Nested objects do not come back: `ParseObject` finds each member after the first by skipping to
the next `,`, and the value of a member that is an object runs on past its `}` and takes in the
members after it (`parse_nested_object_takes_next_member`). What does come back is a flat
object, whose members are scalars and whose strings hold no `,`, and every scalar on its own
(`roundTrips_of_flat`), as long as every integer is at most `2^53` in magnitude and so a `double`.
From `2^1024` on, `std::stod` throws instead (`parse_throws_on_huge_int`). -/

namespace SsLogger.Parser

/-! ## Values and their compact rendering -/

/-- A JSON value as it is written: objects, strings, integers, booleans and `null`. -/
inductive Value where
  | object (members : List (List Char × Value))
  | string (s : List Char)
  /-- An integer as it is written: an optional `-` and decimal digits. -/
  | int (neg : Bool) (digits : List Char)
  | bool (b : Bool)
  | null
  deriving Repr, Inhabited

mutual

/-- The compact rendering: no whitespace between tokens. -/
def render : Value → List Char
  | .object ms => '\x7b' :: renderMembers ms ++ ['\x7d']
  | .string s => '"' :: s ++ ['"']
  | .int neg ds => (if neg then ['-'] else []) ++ ds
  | .bool true => "true".toList
  | .bool false => "false".toList
  | .null => "null".toList

/-- An object's members, `"key":value`, separated by `,`. -/
def renderMembers : List (List Char × Value) → List Char
  | [] => []
  | [(k, v)] => '"' :: k ++ '"' :: ':' :: render v
  | (k, v) :: ms => '"' :: k ++ '"' :: ':' :: render v ++ ',' :: renderMembers ms

end

/-- A character `ParseString` reads back as itself: neither `"` nor `\`. -/
def plainChar (c : Char) : Bool := c != '"' && c != '\\'

mutual

/-- The grammar of the values considered: distinct keys in every object, no `"` or `\` in any
string, and at least one digit in every integer. -/
def Value.wellFormed : Value → Bool
  | .object ms => decide (ms.map Prod.fst).Nodup && membersWellFormed ms
  | .string s => s.all plainChar
  | .int _ ds => !ds.isEmpty && ds.all Char.isDigit
  | .bool _ | .null => true

/-- Every key and every value of the members is well formed. -/
def membersWellFormed : List (List Char × Value) → Bool
  | [] => true
  | (k, v) :: ms => k.all plainChar && v.wellFormed && membersWellFormed ms

end

/-- The value of an integer as written. -/
def intValue (neg : Bool) (ds : List Char) : Int :=
  if neg then -(digitsValue ds : Int) else digitsValue ds

/-- A `Decimal` has the value of the integer `n`. -/
def Decimal.eqInt (d : Decimal) (n : Int) : Bool :=
  (if d.neg then -(d.mantissa : Int) else d.mantissa) == n * (Nat.pow 10 d.scale : Int)

mutual

/-- Every integer of the value is at most `2^53` in magnitude, so that `std::stod` reads it
exactly. -/
def Value.exactInts : Value → Bool
  | .object ms => membersExactInts ms
  | .int _ ds => decide (digitsValue ds ≤ 2 ^ 53)
  | .string _ | .bool _ | .null => true

/-- Every value of the members has its integers at most `2^53` in magnitude. -/
def membersExactInts : List (List Char × Value) → Bool
  | [] => true
  | (_, v) :: ms => v.exactInts && membersExactInts ms

end

theorem Value.exactInts_object_iff {ms : List (List Char × Value)} :
    (Value.object ms).exactInts = true ↔ ∀ m ∈ ms, m.2.exactInts = true := by
  show membersExactInts ms = true ↔ _
  induction ms with
  | nil => simp [membersExactInts]
  | cons m ms ih =>
    obtain ⟨k, v⟩ := m
    simp only [membersExactInts, Bool.and_eq_true, ih, List.mem_cons, forall_eq_or_imp]

mutual

/-- A parsed `JSON` agrees with a value: the same type and, recursively, the same string, number
value, boolean, and for objects the same keys with agreeing values. -/
def agrees : Value → JSON → Bool
  | .object ms, .object js => js.all (fun kj => ms.any (·.1 == kj.1)) && membersAgree ms js
  | .string s, .string t => s == t
  | .int neg ds, .number d => d.eqInt (intValue neg ds)
  | .bool b, .bool c => b == c
  | .null, .nil => true
  | _, _ => false

/-- Every member of the value has its key among the parsed members, with an agreeing value. -/
def membersAgree : List (List Char × Value) → List (List Char × JSON) → Bool
  | [], _ => true
  | (k, v) :: ms, js =>
    (match lookupMember k js with
      | some j => agrees v j
      | none => false) && membersAgree ms js

end

theorem agrees_object (ms : List (List Char × Value)) (js : List (List Char × JSON)) :
    agrees (.object ms) (.object js) =
      (js.all (fun kj => ms.any (·.1 == kj.1)) && membersAgree ms js) :=
  rfl

/-- `JSON::Parse` of the compact rendering of `v` returns a `JSON` that agrees with `v`. -/
def roundTrips (v : Value) : Bool :=
  match JSON.parse (render v) with
  | .ok j => agrees v j
  | _ => false

/-- `{"a":{"b":null},"c":null}`: the object under `a` runs on past its `}` and takes `c` in. -/
theorem parse_nested_object_takes_next_member :
    (Value.object [("a".toList, .object [("b".toList, .null)]), ("c".toList, .null)]).wellFormed ∧
      JSON.parse (render (.object [("a".toList, .object [("b".toList, .null)]), ("c".toList, .null)])) =
        .ok (.object [("a".toList, .object [("b".toList, .nil), ("c".toList, .nil)]),
          ("c".toList, .nil)]) ∧
      roundTrips (.object [("a".toList, .object [("b".toList, .null)]), ("c".toList, .null)]) =
        false :=
  ⟨rfl, rfl, rfl⟩

/-! ## Scanning lemmas -/

theorem skipWhitespace_cons (c : Char) (h : isSpace c = false) (l : List Char) :
    skipWhitespace (c :: l) = c :: l :=
  List.dropWhile_cons_of_neg (by simp [h])

/-- Facts about a digit the parser's case analysis needs. -/
theorem digit_facts {d : Char} (h : d.isDigit = true) :
    isSpace d = false ∧ isNumberChar d = true ∧ d ≠ '\x7b' ∧ d ≠ '"' ∧ d ≠ '\x7d' ∧ d ≠ ',' ∧
      d ≠ '-' := by
  have ne : ∀ c : Char, c.isDigit = false → d ≠ c := by
    rintro c hc rfl
    rw [h] at hc
    cases hc
  refine ⟨?_, by simp [isNumberChar, h], ne _ rfl, ne _ rfl, ne _ rfl, ne _ rfl, ne _ rfl⟩
  simp only [isSpace, Bool.or_eq_false_iff, decide_eq_false_iff_not]
  exact ⟨⟨⟨ne _ rfl, ne _ rfl⟩, ne _ rfl⟩, ne _ rfl⟩

/-- Where `ParseNumber`, `ParseBool` and `ParseNull` stop: the end of the text, a `,` or a `}`. -/
def Stops (rest : List Char) : Prop := ∀ c ∈ rest.head?, c = ',' ∨ c = '\x7d'

theorem takeWhile_stops {p : Char → Bool} {l rest : List Char} (hl : ∀ a ∈ l, p a = true)
    (hr : Stops rest) (hc : p ',' = false) (hb : p '\x7d' = false) : (l ++ rest).takeWhile p = l := by
  rw [List.takeWhile_append_of_pos hl]
  cases rest with
  | nil => simp
  | cons c r =>
    rcases hr c rfl with rfl | rfl <;> simp [List.takeWhile_cons_of_neg, hc, hb]

theorem parseString_quoted {s rest : List Char} (hs : ∀ c ∈ s, c ≠ '"') :
    parseString ('"' :: (s ++ '"' :: rest)) = some (s, rest) := by
  have hp : ∀ c ∈ s, (c != '"') = true := fun c hc => by simpa using hs c hc
  simp [parseString, List.span_eq_take_drop, List.takeWhile_append_of_pos hp,
    List.dropWhile_append_of_pos hp]

/-! ## Scalars -/

/-- Not an object. -/
def Value.isScalar : Value → Bool
  | .object _ => false
  | _ => true

/-- The `JSON` that `Parse` makes of a scalar's rendering. -/
def scalarJSON : Value → JSON
  | .object _ => .object []
  | .string s => .string s
  | .int neg ds => .number ⟨neg, digitsValue ds, 0⟩
  | .bool b => .bool b
  | .null => .nil

theorem readDecimal_int (neg : Bool) {ds : List Char} (hne : ds ≠ [])
    (hd : ∀ c ∈ ds, c.isDigit = true) :
    readDecimal ((if neg then ['-'] else []) ++ ds) = some ⟨neg, digitsValue ds, 0⟩ := by
  obtain ⟨d, ds', rfl⟩ := List.exists_cons_of_ne_nil hne
  have hm := (digit_facts (hd d (List.mem_cons_self _ _))).2.2.2.2.2.2
  cases neg <;>
    simp [readDecimal, List.takeWhile_eq_self_iff.2 hd, List.dropWhile_eq_nil_iff.2 hd, hm]

/-- `std::stod` reads an integer of at most `2^53` exactly. -/
theorem stod_int (neg : Bool) {ds : List Char} (hne : ds ≠ []) (hd : ∀ c ∈ ds, c.isDigit = true)
    (hb : digitsValue ds ≤ 2 ^ 53) :
    stod ((if neg then ['-'] else []) ++ ds) = .ok ⟨neg, digitsValue ds, 0⟩ := by
  rw [stod, readDecimal_int neg hne hd]
  simp only [roundToDouble_int neg hb]

/-- `Parse` on a text that starts with neither whitespace, `{` nor `"`: the dispatch on its first
character. -/
theorem parseFuel_cons (n : ℕ) {c : Char} (r : List Char) (hs : isSpace c = false)
    (h1 : c ≠ '\x7b') (h2 : c ≠ '"') :
    parseFuel (n + 1) (c :: r) =
      if c.isDigit || c = '-' then parseNumber (c :: r)
      else if c = 't' || c = 'f' then parseBool (c :: r)
      else if c = 'n' then parseNull (c :: r)
      else .throw (.runtimeError invalidJSONInput) := by
  simp only [parseFuel, skipWhitespace_cons c hs]

/-- `Parse` dispatches a text that starts with a digit or `-` to `ParseNumber`. -/
theorem parseFuel_number (n : ℕ) {c : Char} (r : List Char) (hc : c.isDigit = true ∨ c = '-') :
    parseFuel (n + 1) (c :: r) = parseNumber (c :: r) := by
  rcases hc with hc | rfl
  · obtain ⟨hsp, -, h1, h2, -⟩ := digit_facts hc
    rw [parseFuel_cons n r hsp h1 h2, if_pos (by simp [hc])]
  · rw [parseFuel_cons n r (by decide) (by decide) (by decide), if_pos (by decide)]

/-- `Parse` hands a written integer, and no more, to `std::stod`. -/
theorem parseFuel_render_int (neg : Bool) {ds : List Char} (hne : ds ≠ [])
    (hd : ∀ c ∈ ds, c.isDigit = true) (n : ℕ) {rest : List Char} (hr : Stops rest) :
    parseFuel (n + 1) (render (.int neg ds) ++ rest) =
      (stod ((if neg then ['-'] else []) ++ ds)).bind fun d => .ok (.number d) := by
  obtain ⟨d, ds', rfl⟩ := List.exists_cons_of_ne_nil hne
  have hnum : ∀ c ∈ (if neg then ['-'] else []) ++ d :: ds', isNumberChar c = true := by
    intro c hc
    cases neg <;> simp at hc <;> rcases hc with rfl | hc <;>
      first | rfl | exact (digit_facts (hd _ (by simp [*]))).2.1
  have hstart : parseFuel (n + 1) ((if neg then ['-'] else []) ++ d :: ds' ++ rest) =
      parseNumber ((if neg then ['-'] else []) ++ d :: ds' ++ rest) := by
    cases neg
    · exact parseFuel_number n _ (.inl (hd d (List.mem_cons_self _ _)))
    · exact parseFuel_number n _ (.inr rfl)
  rw [render, hstart, parseNumber, takeWhile_stops hnum hr rfl rfl]

/-- `std::stod` throws `std::out_of_range` on an integer of `2^1024` or more. -/
theorem stod_huge (neg : Bool) {ds : List Char} (hne : ds ≠ []) (hd : ∀ c ∈ ds, c.isDigit = true)
    (hb : 2 ^ 1024 ≤ digitsValue ds) :
    stod ((if neg then ['-'] else []) ++ ds) = .throw .outOfRange := by
  rw [stod, readDecimal_int neg hne hd]
  have h : 2 ^ 1024 * 10 ^ 0 ≤ digitsValue ds := by rw [Nat.pow_zero, Nat.mul_one]; exact hb
  simp only [roundToDouble_overflow neg h]

/-- `JSON::Parse` throws `std::out_of_range` on every integer whose magnitude is `2^1024` or more:
`std::stod` cannot make a `double` of it. -/
theorem parse_throws_on_huge_int (neg : Bool) {ds : List Char} (hne : ds ≠ [])
    (hd : ∀ c ∈ ds, c.isDigit = true) (hb : 2 ^ 1024 ≤ digitsValue ds) :
    JSON.parse (render (.int neg ds)) = .throw .outOfRange := by
  have h := parseFuel_render_int neg hne hd (render (.int neg ds)).length
    (show Stops [] by simp [Stops])
  rw [List.append_nil] at h
  rw [JSON.parse, h, stod_huge neg hne hd hb]
  rfl

/-- `1` followed by 400 zeros. -/
theorem parse_throws_on_ten_pow_400 :
    ('1' :: List.replicate 400 '0') ≠ [] ∧ (∀ c ∈ '1' :: List.replicate 400 '0', c.isDigit = true) ∧
      2 ^ 1024 ≤ digitsValue ('1' :: List.replicate 400 '0') ∧
      JSON.parse (render (.int false ('1' :: List.replicate 400 '0'))) = .throw .outOfRange := by
  have hd : ∀ c ∈ '1' :: List.replicate 400 '0', c.isDigit = true := by
    set_option maxRecDepth 4000 in decide
  have hb : 2 ^ 1024 ≤ digitsValue ('1' :: List.replicate 400 '0') := by
    set_option exponentiation.threshold 2200 in set_option maxRecDepth 4000 in decide
  exact ⟨List.cons_ne_nil _ _, hd, hb, parse_throws_on_huge_int false (List.cons_ne_nil _ _) hd hb⟩

theorem parseFuel_render_scalar {v : Value} (hs : v.isScalar = true) (hwf : v.wellFormed = true)
    (hx : v.exactInts = true) (n : ℕ) {rest : List Char} (hr : Stops rest) :
    parseFuel (n + 1) (render v ++ rest) = .ok (scalarJSON v) := by
  cases v with
  | object ms => cases hs
  | string s =>
    have hq : ∀ c ∈ s, c ≠ '"' := by
      simp only [Value.wellFormed, List.all_eq_true, plainChar, Bool.and_eq_true, bne_iff_ne] at hwf
      exact fun c hc => (hwf c hc).1
    simp [render, parseFuel, skipWhitespace_cons '"' rfl, parseString_quoted hq, scalarJSON]
  | int neg ds =>
    obtain ⟨hne, hd⟩ : ds ≠ [] ∧ ∀ c ∈ ds, c.isDigit = true := by
      simpa [Value.wellFormed] using hwf
    rw [parseFuel_render_int neg hne hd n hr,
      stod_int neg hne hd (by simpa [Value.exactInts] using hx)]
    rfl
  | bool b =>
    have hw := fun w (hw : ∀ a ∈ w, Char.isAlpha a = true) => takeWhile_stops hw hr rfl rfl
    cases b <;> rw [render]
    · show parseFuel (n + 1) ('f' :: ("alse".toList ++ rest)) = _
      rw [parseFuel_cons n _ (by decide) (by decide) (by decide), if_neg (by decide), if_pos (by decide)]
      show parseBool ("false".toList ++ rest) = _
      simp only [parseBool, hw "false".toList (by decide)]
      rfl
    · show parseFuel (n + 1) ('t' :: ("rue".toList ++ rest)) = _
      rw [parseFuel_cons n _ (by decide) (by decide) (by decide), if_neg (by decide), if_pos (by decide)]
      show parseBool ("true".toList ++ rest) = _
      simp only [parseBool, hw "true".toList (by decide)]
      rfl
  | null =>
    rw [render]
    show parseFuel (n + 1) ('n' :: ("ull".toList ++ rest)) = _
    rw [parseFuel_cons n _ (by decide) (by decide) (by decide), if_neg (by decide), if_neg (by decide),
      if_pos (by decide)]
    show parseNull ("null".toList ++ rest) = _
    simp only [parseNull, takeWhile_stops (p := Char.isAlpha) (l := "null".toList) (by decide) hr rfl rfl]
    rfl

theorem agrees_scalarJSON {v : Value} (hs : v.isScalar = true) : agrees v (scalarJSON v) = true := by
  cases v with
  | object => cases hs
  | string s => exact beq_self_eq_true s
  | int neg ds =>
    show Decimal.eqInt ⟨neg, digitsValue ds, 0⟩ (intValue neg ds) = true
    cases neg <;> simp [Decimal.eqInt, intValue]
  | bool b => exact beq_self_eq_true b
  | null => rfl

/-! ## Flat objects -/

/-- A scalar whose rendering holds no `,`, so that `ParseObject`'s scan for the next member stops
at the `,` after it. -/
def Value.plainScalar : Value → Bool
  | .string s => !s.contains ','
  | .int _ _ | .bool _ | .null => true
  | .object _ => false

theorem Value.isScalar_of_plainScalar {v : Value} (h : v.plainScalar = true) : v.isScalar = true := by
  cases v <;> first | rfl | cases h

/-- A scalar, or an object whose members are plain scalars. -/
def Value.flat : Value → Bool
  | .object ms => ms.all (·.2.plainScalar)
  | _ => true

/-- The stream after a member's value: each following member after its `,`, then the `}`. -/
def renderTail : List (List Char × Value) → List Char
  | [] => ['\x7d']
  | (k, v) :: ms => ',' :: '"' :: k ++ '"' :: ':' :: render v ++ renderTail ms

theorem renderMembers_append (k : List Char) (v : Value) (ms : List (List Char × Value)) :
    renderMembers ((k, v) :: ms) ++ ['\x7d'] = '"' :: k ++ '"' :: ':' :: render v ++ renderTail ms := by
  induction ms generalizing k v with
  | nil => simp [renderMembers, renderTail]
  | cons m ms ih =>
    obtain ⟨k', v'⟩ := m
    simp only [renderMembers, renderTail, List.cons_append, List.append_assoc, ih]

theorem length_lt_renderTail (ms : List (List Char × Value)) : ms.length < (renderTail ms).length := by
  induction ms with
  | nil => simp [renderTail]
  | cons m ms ih => simp only [renderTail, List.length_cons, List.length_append]; omega

theorem stops_renderTail (ms : List (List Char × Value)) : Stops (renderTail ms) := by
  cases ms <;> simp [Stops, renderTail]

/-- The rendering of a plain scalar: it starts with a character that is no space, no `,` and no
`}`, and holds no `,`. -/
theorem render_plainScalar {v : Value} (hp : v.plainScalar = true) (hwf : v.wellFormed = true) :
    ∃ c r, render v = c :: r ∧ isSpace c = false ∧ c ≠ ',' ∧ c ≠ '\x7d' ∧ ∀ x ∈ render v, x ≠ ',' := by
  cases v with
  | object => cases hp
  | string s =>
    refine ⟨'"', s ++ ['"'], rfl, rfl, by decide, by decide, ?_⟩
    have hp : ',' ∉ s := by simpa [Value.plainScalar] using hp
    rintro x hx rfl
    simp [render, hp] at hx
  | int neg ds =>
    obtain ⟨hne, hd⟩ : ds ≠ [] ∧ ∀ c ∈ ds, c.isDigit = true := by
      simpa [Value.wellFormed] using hwf
    obtain ⟨d, ds', rfl⟩ := List.exists_cons_of_ne_nil hne
    have hx : ∀ x ∈ render (.int neg (d :: ds')), x ≠ ',' := by
      rintro x hx rfl
      have : ',' ∈ d :: ds' := by cases neg <;> simpa [render] using hx
      exact (digit_facts (hd _ this)).2.2.2.2.2.1 rfl
    obtain ⟨h1, -, -, -, h5, h6, -⟩ := digit_facts (hd d (List.mem_cons_self _ _))
    cases neg
    · exact ⟨d, ds', rfl, h1, h6, h5, hx⟩
    · exact ⟨'-', d :: ds', rfl, rfl, by decide, by decide, hx⟩
  | bool b => cases b <;> exact ⟨_, _, rfl, rfl, by decide, by decide, by decide⟩
  | null => exact ⟨_, _, rfl, rfl, by decide, by decide, by decide⟩

theorem memberHead_member {k : List Char} (hk : ∀ c ∈ k, c ≠ '"') {c : Char} {r : List Char}
    (hc : isSpace c = false) :
    memberHead ('"' :: (k ++ '"' :: ':' :: c :: r)) = some (k, c :: r) := by
  simp [memberHead, skipWhitespace_cons '"' rfl, parseString_quoted hk, skipWhitespace_cons ':' rfl,
    skipWhitespace_cons c hc]

theorem objectLoop_flat : ∀ (ms : List (List Char × Value)),
    (∀ m ∈ ms, m.2.plainScalar = true ∧ m.2.wellFormed = true ∧ m.2.exactInts = true ∧
      ∀ c ∈ m.1, c ≠ '"') →
    ∀ (v : Value), v.plainScalar = true → v.wellFormed = true →
    ∀ (obj : List (List Char × JSON)) (fuel : Nat), ms.length < fuel →
    objectLoop fuel false obj (render v ++ renderTail ms) =
      .ok (.object (ms.foldl (fun o m => insertMember m.1 (scalarJSON m.2) o) obj))
  | _, _, _, _, _, _, 0, hf => absurd hf (Nat.not_lt_zero _)
  | [], _, v, hv, hwf, obj, f + 1, _ => by
    obtain ⟨c, r, hr, -, -, hbrace, hnone⟩ := render_plainScalar hv hwf
    have hdrop : (render v ++ ['}']).dropWhile (· != ',') = [] := by
      rw [List.dropWhile_append_of_pos fun x hx => by simpa using hnone x hx]
      rfl
    rw [objectLoop, if_neg (by simp [hr, hbrace])]
    simp only [renderTail, nextMember, hdrop, List.foldl_nil]
    rfl
  | (k', v') :: ms, hms, v, hv, hwf, obj, f + 1, hf => by
    obtain ⟨c, r, hr, -, -, hbrace, hnone⟩ := render_plainScalar hv hwf
    obtain ⟨hp', hwf', hx', hk'⟩ := hms _ (List.mem_cons_self _ _)
    obtain ⟨c', r', hr', hsp', hcomma', -, -⟩ := render_plainScalar hp' hwf'
    obtain ⟨g, rfl⟩ : ∃ g, f = g + 1 := ⟨f - 1, by simp at hf; omega⟩
    have hdrop : (render v ++ renderTail ((k', v') :: ms)).dropWhile (· != ',') =
        ',' :: '"' :: (k' ++ '"' :: ':' :: c' :: (r' ++ renderTail ms)) := by
      rw [List.dropWhile_append_of_pos fun x hx => by simpa using hnone x hx]
      simp [renderTail, hr']
    have hval := parseFuel_render_scalar (Value.isScalar_of_plainScalar hp')
      hwf' hx' g (stops_renderTail ms)
    rw [hr', List.cons_append] at hval
    have hafter : afterValue (c' :: (r' ++ renderTail ms)) = c' :: (r' ++ renderTail ms) := by
      simp [afterValue, skipWhitespace_cons c' hsp', hcomma']
    have hrest := objectLoop_flat ms (fun m hm => hms m (List.mem_cons_of_mem _ hm)) v' hp' hwf'
      (insertMember k' (scalarJSON v') obj) (g + 1) (by simp at hf; omega)
    rw [hr', List.cons_append] at hrest
    rw [objectLoop, if_neg (by simp [hr, hbrace])]
    simp only [nextMember, hdrop, memberHead_member hk' hsp', hval, Outcome.ok_bind, hafter, hrest,
      List.foldl_cons, if_false, reduceCtorEq]


theorem insertMember_fresh {k : List Char} {obj : List (List Char × JSON)}
    (h : k ∉ obj.map Prod.fst) (v : JSON) : insertMember k v obj = obj ++ [(k, v)] := by
  induction obj with
  | nil => rfl
  | cons kv obj ih =>
    simp only [List.map_cons, List.mem_cons, not_or] at h
    rw [insertMember, if_neg (Ne.symm h.1), ih h.2]
    rfl

/-- Members with keys new to the object and to each other are added at its end, in order. -/
theorem foldl_insertMember_of_nodup (l obj : List (List Char × JSON))
    (hnd : (obj.map Prod.fst ++ l.map Prod.fst).Nodup) :
    l.foldl (fun o m => insertMember m.1 m.2 o) obj = obj ++ l := by
  induction l generalizing obj with
  | nil => simp
  | cons m l ih =>
    have hfresh : m.1 ∉ obj.map Prod.fst := fun h =>
      (List.nodup_append.1 hnd).2.2 h (List.mem_map_of_mem _ (List.mem_cons_self _ _))
    rw [List.foldl_cons, insertMember_fresh hfresh, ih]
    · simp
    · simpa using hnd

theorem foldl_insertMember (ms : List (List Char × Value)) (obj : List (List Char × JSON))
    (hnd : (obj.map Prod.fst ++ ms.map Prod.fst).Nodup) :
    ms.foldl (fun o m => insertMember m.1 (scalarJSON m.2) o) obj =
      obj ++ ms.map fun m => (m.1, scalarJSON m.2) := by
  rw [← foldl_insertMember_of_nodup _ obj (by simpa using hnd), List.foldl_map]

/-- With no key twice, a member is found under its key. -/
theorem lookupMember_of_mem {l : List (List Char × JSON)} (hnd : (l.map Prod.fst).Nodup)
    {k : List Char} {j : JSON} (h : (k, j) ∈ l) : lookupMember k l = some j := by
  induction l with
  | nil => cases h
  | cons m l ih =>
    simp only [List.map_cons, List.nodup_cons] at hnd
    rcases List.mem_cons.1 h with rfl | h
    · simp [lookupMember]
    · have : m.1 ≠ k := fun e => hnd.1 (e ▸ List.mem_map_of_mem Prod.fst h)
      simp [lookupMember, this, ih hnd.2 h]

theorem lookupMember_eq_none {l : List (List Char × JSON)} {k : List Char}
    (h : k ∉ l.map Prod.fst) : lookupMember k l = none := by
  induction l with
  | nil => rfl
  | cons m l ih =>
    simp only [List.map_cons, List.mem_cons, not_or] at h
    simp [lookupMember, Ne.symm h.1, ih h.2]

/-- What is found under a key is a member under that key. -/
theorem lookupMember_mem {k : List Char} {l : List (List Char × JSON)} {j : JSON}
    (h : lookupMember k l = some j) : (k, j) ∈ l := by
  induction l with
  | nil => cases h
  | cons m l ih =>
    obtain ⟨k', j'⟩ := m
    unfold lookupMember at h
    split_ifs at h with hk
    · cases h; subst hk; exact List.mem_cons_self _ _
    · exact List.mem_cons_of_mem _ (ih h)

theorem lookupMember_map {ms : List (List Char × Value)} (hnd : (ms.map Prod.fst).Nodup)
    {m : List Char × Value} (hm : m ∈ ms) :
    lookupMember m.1 (ms.map fun m => (m.1, scalarJSON m.2)) = some (scalarJSON m.2) :=
  lookupMember_of_mem (by simpa using hnd) (List.mem_map_of_mem _ hm)

theorem membersAgree_of {js : List (List Char × JSON)} : ∀ {ms : List (List Char × Value)},
    (∀ m ∈ ms, ∃ j, lookupMember m.1 js = some j ∧ agrees m.2 j = true) →
      membersAgree ms js = true
  | [], _ => rfl
  | (k, v) :: ms, h => by
    obtain ⟨j, hj, ha⟩ := h (k, v) (List.mem_cons_self _ _)
    simp [membersAgree, hj, ha, membersAgree_of fun m hm => h m (List.mem_cons_of_mem _ hm)]

theorem agrees_object_map {ms : List (List Char × Value)} (hnd : (ms.map Prod.fst).Nodup)
    (hs : ∀ m ∈ ms, m.2.isScalar = true) :
    agrees (.object ms) (.object (ms.map fun m => (m.1, scalarJSON m.2))) = true := by
  simp only [agrees_object, Bool.and_eq_true, List.all_eq_true, List.any_eq_true, List.mem_map,
    beq_iff_eq]
  refine ⟨?_, membersAgree_of fun m hm => ⟨_, lookupMember_map hnd hm, agrees_scalarJSON (hs m hm)⟩⟩
  rintro _ ⟨m, hm, rfl⟩
  exact ⟨m, hm, rfl⟩

theorem membersWellFormed_iff {ms : List (List Char × Value)} :
    membersWellFormed ms = true ↔ ∀ m ∈ ms, m.1.all plainChar = true ∧ m.2.wellFormed = true := by
  induction ms with
  | nil => simp [membersWellFormed]
  | cons m ms ih =>
    obtain ⟨k, v⟩ := m
    simp only [membersWellFormed, Bool.and_eq_true, ih, List.mem_cons, forall_eq_or_imp, and_assoc]

theorem Value.wellFormed_object_iff {ms : List (List Char × Value)} :
    (Value.object ms).wellFormed = true ↔
      (ms.map Prod.fst).Nodup ∧ ∀ m ∈ ms, m.1.all plainChar = true ∧ m.2.wellFormed = true := by
  simp only [Value.wellFormed, Bool.and_eq_true, decide_eq_true_eq, membersWellFormed_iff]

theorem roundTrips_scalar {v : Value} (hs : v.isScalar = true) (hwf : v.wellFormed = true)
    (hx : v.exactInts = true) : roundTrips v = true := by
  have h := parseFuel_render_scalar hs hwf hx (render v).length (show Stops [] by simp [Stops])
  rw [List.append_nil] at h
  simp [roundTrips, JSON.parse, h, agrees_scalarJSON hs]

theorem parseFuel_object (n : Nat) (cs : List Char) :
    parseFuel (n + 1) ('{' :: cs) = objectLoop n true [] (skipWhitespace cs) := by
  simp [parseFuel, skipWhitespace_cons '{' rfl]

/-- `JSON::Parse` gives back every well-formed scalar, and every well-formed object whose members
are scalars with no `,` in their text, when every integer is at most `2^53` in magnitude. -/
theorem roundTrips_of_flat {v : Value} (hwf : v.wellFormed = true) (hflat : v.flat = true)
    (hx : v.exactInts = true) : roundTrips v = true := by
  cases v with
  | object ms =>
    obtain ⟨hnd, hms⟩ := Value.wellFormed_object_iff.1 hwf
    have hxs := Value.exactInts_object_iff.1 hx
    simp only [Value.flat, List.all_eq_true] at hflat
    have hkeys : ∀ m ∈ ms, ∀ c ∈ m.1, c ≠ '"' := fun m hm c hc => by
      have := (List.all_eq_true.1 (hms m hm).1) c hc
      simp [plainChar] at this
      exact this.1
    have hscalar : ∀ m ∈ ms, m.2.isScalar = true := fun m hm =>
      Value.isScalar_of_plainScalar (hflat m hm)
    have hparse : JSON.parse (render (.object ms)) =
        .ok (.object (ms.map fun m => (m.1, scalarJSON m.2))) := by
      cases ms with
      | nil => rfl
      | cons m ms' =>
        obtain ⟨k, v1⟩ := m
        obtain ⟨c, r, hr, hsp, hcomma, -, -⟩ :=
          render_plainScalar (hflat _ (List.mem_cons_self _ _)) (hms _ (List.mem_cons_self _ _)).2
        obtain ⟨hp1, hwf1⟩ := And.intro (hflat _ (List.mem_cons_self _ _)) (hms _ (List.mem_cons_self _ _)).2
        have hX : render (.object ((k, v1) :: ms')) =
            '{' :: '"' :: (k ++ '"' :: ':' :: c :: (r ++ renderTail ms')) := by
          rw [render, List.cons_append, renderMembers_append, hr]
          simp
        have hlen := length_lt_renderTail ms'
        have hval : parseFuel (k.length + r.length + (renderTail ms').length + 4) (render v1 ++ renderTail ms') =
            .ok (scalarJSON v1) := parseFuel_render_scalar (hscalar _ (List.mem_cons_self _ _)) hwf1
          (hxs _ (List.mem_cons_self _ _)) (k.length + r.length + (renderTail ms').length + 3)
          (stops_renderTail ms')
        rw [hr, List.cons_append] at hval
        have hafter : afterValue (c :: (r ++ renderTail ms')) = c :: (r ++ renderTail ms') := by
          simp [afterValue, skipWhitespace_cons c hsp, hcomma]
        have hrest := objectLoop_flat ms' (fun m hm => ⟨hflat m (List.mem_cons_of_mem _ hm),
          (hms m (List.mem_cons_of_mem _ hm)).2, hxs m (List.mem_cons_of_mem _ hm),
          hkeys m (List.mem_cons_of_mem _ hm)⟩) v1 hp1 hwf1
          (insertMember k (scalarJSON v1) []) (k.length + r.length + (renderTail ms').length + 4)
          (by omega)
        rw [hr, List.cons_append] at hrest
        rw [JSON.parse, hX, parseFuel_object, skipWhitespace_cons '"' rfl]
        simp only [List.length_cons, List.length_append]
        rw [show k.length + (r.length + (renderTail ms').length + 1 + 1 + 1) + 1 + 1 =
          (k.length + r.length + (renderTail ms').length + 3) + 1 + 1 by omega, objectLoop,
          if_neg (by simp)]
        simp only [nextMember, if_true, memberHead_member (hkeys _ (List.mem_cons_self _ _)) hsp,
          hval, Outcome.ok_bind, hafter, hrest, if_false, reduceCtorEq]
        rw [foldl_insertMember _ _ (by simpa only [insertMember, List.map_cons, List.map_nil,
          List.singleton_append] using hnd)]
        rfl
    simp [roundTrips, hparse, agrees_object_map hnd hscalar]
  | _ => exact roundTrips_scalar rfl hwf hx

/-- A `Server` section with a name and a port comes back. -/
theorem roundTrips_server_section :
    (Value.object [("servername".toList, .string "main".toList),
      ("listenerport".toList, .int false "8080".toList)]).wellFormed = true ∧
    (Value.object [("servername".toList, .string "main".toList),
      ("listenerport".toList, .int false "8080".toList)]).flat = true ∧
    (Value.object [("servername".toList, .string "main".toList),
      ("listenerport".toList, .int false "8080".toList)]).exactInts = true ∧
    roundTrips (.object [("servername".toList, .string "main".toList),
      ("listenerport".toList, .int false "8080".toList)]) = true :=
  ⟨rfl, rfl, by decide, roundTrips_of_flat rfl rfl (by decide)⟩

end SsLogger.Parser

import SsLogger.Parser.Lookup

set_option autoImplicit false

/-! # `Config`

`Config(filename)` parses the file with `JSON::Parse` and fills its five sections from the object
under `root`. Each `Parse*Config` looks its section up in `root`; a present section's fields are
read with `GetValueOrDefault`, which takes the value a key holds, or leaves the default of
`ServerConfig.h` and prints a warning. An absent section prints a warning under its own name.
The warnings are kept, in order, as the lines the constructor prints.

A string value with a `,` in it is enough to break this: `ParseObject`'s scan for the next member
stops inside the string, reads a key out of what follows, and the `Parse` of what it takes for a
value throws. The constructor throws with it (`config_throws_on_comma`). -/

namespace SsLogger.Parser

/-! ## The settings and their defaults -/

/-- `Config::Server`. -/
structure Config.Server where
  serverName : List Char := "DefaultServer".toList
  serverDisplayName : List Char := "DefaultServerDisplayName".toList
  listenerPort : Int := 25000
  ipAddress : List Char := "127.0.0.1".toList
  deriving DecidableEq, Repr

/-- `Config::CommunicationSettings`. -/
structure Config.CommunicationSettings where
  blocking : Int := 0
  socketTimeout : Int := 5
  deriving DecidableEq, Repr

/-- `Config::Logging`. -/
structure Config.Logging where
  filename : List Char := "serverlog.txt".toList
  logLevel : Int := 2
  flush : Int := 0
  deriving DecidableEq, Repr

/-- `Config::Time`. -/
structure Config.Time where
  periodTime : Int := 30
  deriving DecidableEq, Repr

/-- `Config::ThreadPool`. -/
structure Config.ThreadPool where
  maxWorkingThreads : Int := 10
  deriving DecidableEq, Repr

/-- `Config`: its five sections. -/
structure Config where
  server : Config.Server := {}
  communicationSettings : Config.CommunicationSettings := {}
  logging : Config.Logging := {}
  time : Config.Time := {}
  threadPool : Config.ThreadPool := {}
  deriving DecidableEq, Repr

/-! ## Reading a field -/

/-- What a step prints: its result and the warning lines, in order. -/
abbrev Logged (α : Type) := Outcome (α × List (List Char))

/-- The line `NotifyDefault(property)` prints. -/
def notifyDefault (property : List Char) : List Char :=
  "Warning: ".toList ++ property ++ " is set to default value.".toList

/-- `GetValueOrDefault<std::string>`'s read: `get_string_value()`. -/
def readString (j : JSON) : Outcome (List Char) := .ok j.getStringValue

/-- `int` is 32 bits wide: `INT_MIN` is `-2^31`. -/
def intMin : Int := -2147483648

/-- `INT_MAX` is `2^31 - 1`. -/
def intMax : Int := 2147483647

/-- `static_cast<int>` of a `double`: truncation toward zero, undefined outside `int`. -/
def castToInt (d : Decimal) : Outcome Int :=
  let n : Int := (d.mantissa / Nat.pow 10 d.scale : Nat)
  let n := if d.neg then -n else n
  if intMin ≤ n ∧ n ≤ intMax then .ok n else .undefined

/-- `GetValueOrDefault<int>`'s read: `static_cast<int>(get_number_value())`. -/
def readInt (j : JSON) : Outcome Int := j.getNumberValue.bind castToInt

/-- `GetValueOrDefault`: the value `key` holds in `obj`, read by `read`, or the default and a
warning naming the key. -/
def getValueOrDefault {T : Type} (read : JSON → Outcome T) (obj : List (List Char × JSON))
    (key : List Char) (defaultValue : T) : Logged T :=
  match lookupMember key obj with
  | some j => (read j).bind fun v => .ok (v, [])
  | none => .ok (defaultValue, [notifyDefault key])

/-! ## Sections -/

/-- The shape of every `Parse*Config`: if `root` has the section `key`, fill its fields with
`fill`; otherwise keep the section as it is and warn under `name`. -/
def parseSection {α : Type} (key name : List Char) (fill : List (List Char × JSON) → α → Logged α)
    (root : JSON) (current : α) : Logged α :=
  match lookupMember key root.getObjectValue with
  | some s => fill s.getObjectValue current
  | none => .ok (current, [notifyDefault name])

/-- `ParseServerConfig`. -/
def parseServerConfig : JSON → Config.Server → Logged Config.Server :=
  parseSection "Server".toList "Server".toList fun obj s =>
    (getValueOrDefault readString obj "servername".toList s.serverName).bind fun (name, w1) =>
    (getValueOrDefault readString obj "serverdisplayname".toList s.serverDisplayName).bind
      fun (display, w2) =>
    (getValueOrDefault readInt obj "listenerport".toList s.listenerPort).bind fun (port, w3) =>
    (getValueOrDefault readString obj "ipaddress".toList s.ipAddress).bind fun (ip, w4) =>
    .ok (⟨name, display, port, ip⟩, w1 ++ w2 ++ w3 ++ w4)

/-- `ParseCommunicationSettings`. -/
def parseCommunicationSettings :
    JSON → Config.CommunicationSettings → Logged Config.CommunicationSettings :=
  parseSection "communicationsettings".toList "CommunicationSettings".toList fun obj c =>
    (getValueOrDefault readInt obj "blocking".toList c.blocking).bind fun (blocking, w1) =>
    (getValueOrDefault readInt obj "socket_timeout".toList c.socketTimeout).bind
      fun (timeout, w2) =>
    .ok (⟨blocking, timeout⟩, w1 ++ w2)

/-- `ParseLoggingConfig`. -/
def parseLoggingConfig : JSON → Config.Logging → Logged Config.Logging :=
  parseSection "logging".toList "Logging".toList fun obj l =>
    (getValueOrDefault readString obj "filename".toList l.filename).bind fun (filename, w1) =>
    (getValueOrDefault readInt obj "LogLevel".toList l.logLevel).bind fun (level, w2) =>
    (getValueOrDefault readInt obj "flush".toList l.flush).bind fun (flush, w3) =>
    .ok (⟨filename, level, flush⟩, w1 ++ w2 ++ w3)

/-- `ParseTimeConfig`. -/
def parseTimeConfig : JSON → Config.Time → Logged Config.Time :=
  parseSection "time".toList "Time".toList fun obj t =>
    (getValueOrDefault readInt obj "Period_time".toList t.periodTime).bind fun (period, w) =>
    .ok (⟨period⟩, w)

/-- `ParseThreadPoolConfig`. -/
def parseThreadPoolConfig : JSON → Config.ThreadPool → Logged Config.ThreadPool :=
  parseSection "threadpool".toList "ThreadPool".toList fun obj t =>
    (getValueOrDefault readInt obj "maxworkingthreads".toList t.maxWorkingThreads).bind
      fun (threads, w) =>
    .ok (⟨threads⟩, w)

/-- `ParseJSON`: `root` must be there (`at` throws otherwise); then the five sections, in order. -/
def parseJSON (json : JSON) (c : Config) : Logged Config :=
  match lookupMember "root".toList json.getObjectValue with
  | none => .throw .outOfRange
  | some root =>
    (parseServerConfig root c.server).bind fun (server, w1) =>
    (parseCommunicationSettings root c.communicationSettings).bind fun (comm, w2) =>
    (parseLoggingConfig root c.logging).bind fun (logging, w3) =>
    (parseTimeConfig root c.time).bind fun (time, w4) =>
    (parseThreadPoolConfig root c.threadPool).bind fun (threadPool, w5) =>
    .ok (⟨server, comm, logging, time, threadPool⟩, w1 ++ w2 ++ w3 ++ w4 ++ w5)

/-- `Config::Config(filename)`, on the file's contents (`none`: the file does not open). -/
def Config.ofFile : Option (List Char) → Logged Config
  | none => .ok ({}, ["Warning: Could not open filename. Settings are set to default values".toList])
  | some content => (JSON.parse content).bind fun json => parseJSON json {}

/-- The file `{"root":{"Server":{"servername":"a,b"}}}`: the scan for a next member stops at the
`,` inside the name, reads the empty key out of `b"`, takes the `}` for the `:`, and the `Parse` of
what is left, `}}`, throws. -/
theorem config_throws_on_comma :
    Config.ofFile (some (render (.object [("root".toList, .object [("Server".toList,
      .object [("servername".toList, .string "a,b".toList)])])]))) =
      .throw (.runtimeError invalidJSONInput) :=
  rfl

/-! ## Text cut short

`ParseString`'s loop `while (ss.peek() != '"')` does not test for the end of the stream, as the
loop of `ParseObject` that skips to the next `,` does: with no `"` left, `peek()` returns `EOF`
for ever and the loop only appends. -/

theorem parseString_eq_none {cs : List Char} (h : '"' ∉ cs.drop 1) : parseString cs = none := by
  have hall : ∀ c ∈ cs.drop 1, (c != '"') = true := fun c hc => by
    simpa using ne_of_mem_of_not_mem hc h
  rw [parseString, List.span_eq_take_drop, List.dropWhile_eq_nil_iff.2 hall]

/-- A string, or an object whose first key is cut off, with no `"` after its opening one: `Parse`
never returns, and neither does the construction of a `Config` from the object. -/
theorem parse_hangs_of_no_quote (s : List Char) (hs : '"' ∉ s) :
    JSON.parse ('"' :: s) = .hang ∧
      ((skipWhitespace s).head? ≠ some '}' →
        JSON.parse ('{' :: s) = .hang ∧ Config.ofFile (some ('{' :: s)) = .hang) := by
  have hsuffix (cs : List Char) (h : cs <:+ s) : parseString cs = none :=
    parseString_eq_none fun hm => hs (((List.drop_suffix 1 cs).trans h).subset hm)
  refine ⟨by simp [JSON.parse, parseFuel, skipWhitespace, isSpace, @parseString_eq_none ('"' :: s) hs],
    fun hb => ?_⟩
  have hobj : JSON.parse ('{' :: s) = .hang := by
    simp only [skipWhitespace] at hb
    simp [JSON.parse, parseFuel, objectLoop, skipWhitespace, isSpace, hb, nextMember, memberHead,
      hsuffix _ ((List.dropWhile_suffix _).trans (List.dropWhile_suffix _))]
  exact ⟨hobj, by simp only [Config.ofFile, hobj]; rfl⟩

/-- The text `{`, with nothing after it. -/
theorem parse_hangs_on_lone_brace :
    '"' ∉ ([] : List Char) ∧ (skipWhitespace []).head? ≠ some '}' ∧
      JSON.parse ['{'] = .hang ∧ Config.ofFile (some ['{']) = .hang :=
  ⟨by decide, by decide, (parse_hangs_of_no_quote [] (by decide)).2 (by decide)⟩

/-- An object cut off after the `,` that ends its first member. -/
example : JSON.parse "\x7b\"a\":1,".toList = .hang := by
  set_option exponentiation.threshold 2200 in rfl

/-! ## Reading alike

Each `Parse*Config` reads its section only through `GetValueOrDefault` on the section's keys, and
`ParseJSON` reads `root` and the five sections only through lookups. So two documents whose lookups
agree on those keys give the same `Config` and the same warnings. -/

/-- The sections `ParseJSON` reads under `root`, each with the keys its `Parse*Config` reads. -/
def configSchema : List (List Char × List (List Char)) :=
  [("Server".toList, ["servername".toList, "serverdisplayname".toList, "listenerport".toList,
      "ipaddress".toList]),
    ("communicationsettings".toList, ["blocking".toList, "socket_timeout".toList]),
    ("logging".toList, ["filename".toList, "LogLevel".toList, "flush".toList]),
    ("time".toList, ["Period_time".toList]),
    ("threadpool".toList, ["maxworkingthreads".toList])]

/-- Two objects hold the same values under `keys`. -/
def ReadsAlike (keys : List (List Char)) (a b : List (List Char × JSON)) : Prop :=
  ∀ x ∈ keys, lookupMember x a = lookupMember x b

/-- Two roots hold the section of the schema entry `e` alike: both lack it, or both hold objects
that hold the same values under the section's keys. -/
def SectionAlike (e : List Char × List (List Char)) (r r' : JSON) : Prop :=
  Option.Rel (fun s s' => ReadsAlike e.2 s.getObjectValue s'.getObjectValue)
    (lookupMember e.1 r.getObjectValue) (lookupMember e.1 r'.getObjectValue)

theorem getValueOrDefault_congr {T : Type} {keys : List (List Char)}
    {a b : List (List Char × JSON)} (h : ReadsAlike keys a b) {key : List Char} (hk : key ∈ keys)
    (read : JSON → Outcome T) (defaultValue : T) :
    getValueOrDefault read a key defaultValue = getValueOrDefault read b key defaultValue := by
  rw [getValueOrDefault, h key hk, getValueOrDefault]

theorem parseSection_congr {α : Type} (key name : List Char)
    {fill : List (List Char × JSON) → α → Logged α} {keys : List (List Char)}
    (hfill : ∀ a b cur, ReadsAlike keys a b → fill a cur = fill b cur) {r r' : JSON}
    (h : SectionAlike (key, keys) r r') (cur : α) :
    parseSection key name fill r cur = parseSection key name fill r' cur := by
  unfold SectionAlike at h
  unfold parseSection
  generalize lookupMember key r.getObjectValue = x at h ⊢
  generalize lookupMember key r'.getObjectValue = y at h ⊢
  cases h with
  | none => rfl
  | some hs => exact hfill _ _ cur hs

theorem parseServerConfig_congr {r r' : JSON} (h : SectionAlike configSchema[0] r r')
    (cur : Config.Server) : parseServerConfig r cur = parseServerConfig r' cur :=
  parseSection_congr _ _ (fun _ _ _ hab => by simp (disch := decide) only [getValueOrDefault_congr hab]) h cur

theorem parseCommunicationSettings_congr {r r' : JSON} (h : SectionAlike configSchema[1] r r')
    (cur : Config.CommunicationSettings) :
    parseCommunicationSettings r cur = parseCommunicationSettings r' cur :=
  parseSection_congr _ _ (fun _ _ _ hab => by simp (disch := decide) only [getValueOrDefault_congr hab]) h cur

theorem parseLoggingConfig_congr {r r' : JSON} (h : SectionAlike configSchema[2] r r')
    (cur : Config.Logging) : parseLoggingConfig r cur = parseLoggingConfig r' cur :=
  parseSection_congr _ _ (fun _ _ _ hab => by simp (disch := decide) only [getValueOrDefault_congr hab]) h cur

theorem parseTimeConfig_congr {r r' : JSON} (h : SectionAlike configSchema[3] r r')
    (cur : Config.Time) : parseTimeConfig r cur = parseTimeConfig r' cur :=
  parseSection_congr _ _ (fun _ _ _ hab => by simp (disch := decide) only [getValueOrDefault_congr hab]) h cur

theorem parseThreadPoolConfig_congr {r r' : JSON} (h : SectionAlike configSchema[4] r r')
    (cur : Config.ThreadPool) : parseThreadPoolConfig r cur = parseThreadPoolConfig r' cur :=
  parseSection_congr _ _ (fun _ _ _ hab => by simp (disch := decide) only [getValueOrDefault_congr hab]) h cur

/-- `ParseJSON` reads the same from two documents that both hold `root`, with every section of the
schema held alike. -/
theorem parseJSON_congr {j t r r' : JSON} (hj : lookupMember "root".toList j.getObjectValue = some r)
    (ht : lookupMember "root".toList t.getObjectValue = some r')
    (h : ∀ e ∈ configSchema, SectionAlike e r r') (c : Config) : parseJSON j c = parseJSON t c := by
  simp only [parseJSON, hj, ht,
    parseServerConfig_congr (h _ (List.getElem_mem _)),
    parseCommunicationSettings_congr (h _ (List.getElem_mem _)),
    parseLoggingConfig_congr (h _ (List.getElem_mem _)),
    parseTimeConfig_congr (h _ (List.getElem_mem _)),
    parseThreadPoolConfig_congr (h _ (List.getElem_mem _))]

/-! ## Config files with no `,` inside a token

A config file is `{"root": R}`, where every member of `R` is one of the five sections, and each
section an object of fields under keys its `Parse*Config` reads, each field of the type it is read
as. For such a file whose strings hold no `,`, `ParseObject`'s defect does no harm: every object
of the parsed document holds its own members, and what it takes in are members of later sections,
under keys its reader never asks for. So `Config(filename)` builds the `Config`, and prints the
warnings, that it would from a parser that keeps to the grammar (`config_of_comma_free`). -/

mutual

/-- The `JSON` a parser that keeps to the grammar makes of a value: every object holds exactly its
members. -/
def Value.toJSON : Value → JSON
  | .object ms => .object (membersToJSON ms)
  | v => scalarJSON v

/-- The members, each with its value's `JSON`. -/
def membersToJSON : List (List Char × Value) → List (List Char × JSON)
  | [] => []
  | (k, v) :: ms => (k, v.toJSON) :: membersToJSON ms

end

theorem membersToJSON_eq (ms : List (List Char × Value)) :
    membersToJSON ms = ms.map fun m => (m.1, m.2.toJSON) := by
  induction ms with
  | nil => rfl
  | cons m ms ih => simp [membersToJSON, ih]

theorem Value.toJSON_of_isScalar {v : Value} (h : v.isScalar = true) : v.toJSON = scalarJSON v := by
  cases v <;> first | rfl | cases h

/-- With its keys distinct, an object's `JSON` holds each member under its key. -/
theorem lookupMember_toJSON_of_mem {ms : List (List Char × Value)} (hnd : (ms.map Prod.fst).Nodup)
    {x : List Char} {y : Value} (h : (x, y) ∈ ms) :
    lookupMember x (Value.object ms).toJSON.getObjectValue = some y.toJSON := by
  show lookupMember x (membersToJSON ms) = _
  rw [membersToJSON_eq]
  exact lookupMember_of_mem (by simpa [List.map_map, Function.comp_def] using hnd)
    (List.mem_map_of_mem (fun m : List Char × Value => (m.1, m.2.toJSON)) h)

/-- An object's `JSON` holds nothing under a key the object does not have. -/
theorem lookupMember_toJSON_of_not_mem {ms : List (List Char × Value)} {x : List Char}
    (h : x ∉ ms.map Prod.fst) : lookupMember x (Value.object ms).toJSON.getObjectValue = none := by
  show lookupMember x (membersToJSON ms) = _
  rw [membersToJSON_eq]
  exact lookupMember_eq_none (by simpa [List.map_map, Function.comp_def] using h)

/-- The keys the `Parse*Config`s read with `GetValueOrDefault<int>`; the others are read as
strings. -/
def intKeys : List (List Char) :=
  ["listenerport".toList, "blocking".toList, "socket_timeout".toList, "LogLevel".toList,
    "flush".toList, "Period_time".toList, "maxworkingthreads".toList]

/-- A field's value has the type its reader reads: a string under a key read as a string, an
integer in the range of `int` under a key read as an `int`. -/
def Value.fits (key : List Char) : Value → Bool
  | .string _ => !intKeys.contains key
  | .int neg ds =>
    intKeys.contains key && decide (intMin ≤ intValue neg ds ∧ intValue neg ds ≤ intMax)
  | .object _ | .bool _ | .null => false

/-- A section of a config file: an object of fields under keys its `Parse*Config` reads, each
holding a value of the type it is read as. -/
def Value.configSection (keys : List (List Char)) : Value → Bool
  | .object fields => fields.all fun f => keys.contains f.1 && f.2.fits f.1
  | _ => false

/-- A config file: `{"root": R}`, where every member of `R` is a section of the schema, under the
section's name. -/
def Value.configFile : Value → Bool
  | .object [(r, .object sections)] => r == "root".toList &&
      sections.all fun m => configSchema.any fun e => e.1 == m.1 && m.2.configSection e.2
  | _ => false

theorem configSchema_root : ∀ e ∈ configSchema, e.1 ≠ "root".toList ∧ "root".toList ∉ e.2 := by
  decide

theorem configSchema_name_not_key : ∀ e ∈ configSchema, ∀ e' ∈ configSchema, e'.1 ∉ e.2 := by
  decide

theorem configSchema_keys_disjoint :
    ∀ e ∈ configSchema, ∀ e' ∈ configSchema, e.1 ≠ e'.1 → ∀ f ∈ e.2, f ∉ e'.2 := by
  decide

theorem Value.configFile_cases {v : Value} (h : v.configFile = true) :
    ∃ R, v = .object [("root".toList, .object R)] ∧
      ∀ m ∈ R, ∃ e ∈ configSchema, e.1 = m.1 ∧ m.2.configSection e.2 = true := by
  unfold Value.configFile at h
  split at h
  · simp only [Bool.and_eq_true, beq_iff_eq, List.all_eq_true, List.any_eq_true] at h
    obtain ⟨rfl, h⟩ := h
    exact ⟨_, rfl, h⟩
  · cases h

theorem Value.isScalar_of_fits {key : List Char} {v : Value} (h : v.fits key = true) :
    v.isScalar = true := by
  cases v <;> first | rfl | cases h

/-- A field that fits has its integer, if any, in the range of `int`, so at most `2^53`. -/
theorem Value.exactInts_of_fits {key : List Char} {v : Value} (h : v.fits key = true) :
    v.exactInts = true := by
  cases v with
  | int neg ds =>
    simp only [Value.fits, Bool.and_eq_true, decide_eq_true_eq] at h
    obtain ⟨-, h₁, h₂⟩ := h
    simp only [Value.exactInts, decide_eq_true_eq]
    unfold intValue intMin intMax at *
    split_ifs at h₁ h₂ <;> omega
  | string => rfl
  | _ => cases h

/-- A section of a config file is an object of fields that fit, under its schema entry's keys. -/
theorem Value.configSection_fits {keys : List (List Char)} {s : Value}
    (h : s.configSection keys = true) :
    ∃ fields, s = .object fields ∧ ∀ f ∈ fields, f.1 ∈ keys ∧ f.2.fits f.1 = true := by
  cases s with
  | object fields => exact ⟨fields, rfl, by simpa [Value.configSection] using h⟩
  | _ => cases h

/-- A section of a config file is an object of scalars under its schema entry's keys. -/
theorem Value.configSection_cases {keys : List (List Char)} {s : Value}
    (h : s.configSection keys = true) :
    ∃ fields, s = .object fields ∧ ∀ f ∈ fields, f.1 ∈ keys ∧ f.2.isScalar = true := by
  obtain ⟨fields, rfl, hfs⟩ := Value.configSection_fits h
  exact ⟨fields, rfl, fun f hf => ⟨(hfs f hf).1, Value.isScalar_of_fits (hfs f hf).2⟩⟩

theorem Value.keys_of_scalars {fields : List (List Char × Value)}
    (h : ∀ f ∈ fields, f.2.isScalar = true) : (Value.object fields).keys = fields.map Prod.fst := by
  induction fields with
  | nil => rfl
  | cons f fields ih =>
    obtain ⟨k, v⟩ := f
    have hv : v.keys = [] := by
      have := h _ (List.mem_cons_self _ _)
      cases v <;> first | rfl | cases this
    show k :: (v.keys ++ membersKeys fields) = _
    rw [hv, List.nil_append]
    exact congrArg (k :: ·) (ih fun f hf => h f (List.mem_cons_of_mem _ hf))

section ConfigFile

variable {R : List (List Char × Value)}
  (hR : ∀ m ∈ R, ∃ e ∈ configSchema, e.1 = m.1 ∧ m.2.configSection e.2 = true)
include hR

/-- The keys of a section of a config file are keys of its schema entry. -/
theorem keys_sub_schema {m : List Char × Value} (hm : m ∈ R) :
    ∃ e ∈ configSchema, e.1 = m.1 ∧ ∀ x ∈ m.2.keys, x ∈ e.2 := by
  obtain ⟨e, he, hem, hs⟩ := hR m hm
  obtain ⟨fields, hf, hfs⟩ := Value.configSection_cases hs
  refine ⟨e, he, hem, fun x hx => ?_⟩
  rw [hf, Value.keys_of_scalars fun f hf => (hfs f hf).2] at hx
  obtain ⟨f, hf, rfl⟩ := List.mem_map.1 hx
  exact (hfs f hf).1

/-- `root` is written in no section of a config file. -/
theorem root_not_mem_membersKeys : "root".toList ∉ membersKeys R := fun h => by
  obtain ⟨m, hm, h | h⟩ := mem_membersKeys.1 h <;> obtain ⟨e, he, hem, hk⟩ := keys_sub_schema hR hm
  · exact (configSchema_root e he).1 (hem.trans h.symm)
  · exact (configSchema_root e he).2 (hk _ h)

/-- A section's name is written in a config file only as the name of a section. -/
theorem name_mem_of_mem_membersKeys {e : List Char × List (List Char)} (he : e ∈ configSchema)
    (h : e.1 ∈ membersKeys R) : e.1 ∈ R.map Prod.fst := by
  obtain ⟨m, hm, h | h⟩ := mem_membersKeys.1 h
  · exact h ▸ List.mem_map_of_mem _ hm
  · obtain ⟨e', he', -, hk⟩ := keys_sub_schema hR hm
    exact absurd (hk _ h) (configSchema_name_not_key e' he' e he)

/-- A key of the schema entry `e` is written in a config file only in its section `e`. -/
theorem key_mem_of_mem_membersKeys {e : List Char × List (List Char)} (he : e ∈ configSchema)
    {x : List Char} (hx : x ∈ e.2) (h : x ∈ membersKeys R) : ∃ s, (e.1, s) ∈ R ∧ x ∈ s.keys := by
  obtain ⟨m, hm, h | h⟩ := mem_membersKeys.1 h <;> obtain ⟨e', he', hem, hk⟩ := keys_sub_schema hR hm
  · exact absurd (by rw [hem, ← h]; exact hx) (configSchema_name_not_key e he e' he')
  · by_cases hne : e.1 = e'.1
    · exact ⟨m.2, by rw [hne, hem]; exact hm, h⟩
    · exact absurd (hk _ h) (configSchema_keys_disjoint e he e' he' hne x hx)

/-- With its sections distinct and each one's keys distinct, no key is written twice in a config
file's sections. -/
theorem membersKeys_nodup (hnd : (R.map Prod.fst).Nodup) (hkeys : ∀ m ∈ R, m.2.keys.Nodup) :
    (membersKeys R).Nodup := by
  induction R with
  | nil => exact List.nodup_nil
  | cons m R ih =>
    obtain ⟨k, s⟩ := m
    have hR' : ∀ m ∈ R, ∃ e ∈ configSchema, e.1 = m.1 ∧ m.2.configSection e.2 = true :=
      fun m hm => hR m (List.mem_cons_of_mem _ hm)
    obtain ⟨e, he, rfl, hk⟩ := keys_sub_schema hR (List.mem_cons_self _ _)
    simp only [List.map_cons, List.nodup_cons] at hnd
    rw [membersKeys, List.nodup_cons, List.nodup_append, List.mem_append, not_or]
    refine ⟨⟨fun h => configSchema_name_not_key e he e he (hk _ h),
      fun h => hnd.1 (name_mem_of_mem_membersKeys hR' he h)⟩,
      hkeys _ (List.mem_cons_self _ _),
      ih hR' hnd.2 fun m hm => hkeys m (List.mem_cons_of_mem _ hm), fun x hx hx' => ?_⟩
    obtain ⟨s', hs', -⟩ := key_mem_of_mem_membersKeys hR' he (hk x hx) hx'
    exact hnd.1 (List.mem_map_of_mem Prod.fst hs')

end ConfigFile

/-- No key is written twice in a well-formed config file. -/
theorem Value.configFile_nodup {v : Value} (hwf : v.wellFormed = true) (hcf : v.configFile = true) :
    v.keys.Nodup := by
  obtain ⟨R, rfl, hR⟩ := Value.configFile_cases hcf
  obtain ⟨hnd, hms⟩ := Value.wellFormed_object_iff.1
    ((Value.wellFormed_object_iff.1 hwf).2 _ (List.mem_singleton_self _)).2
  have hkeys : ∀ m ∈ R, m.2.keys.Nodup := fun m hm => by
    obtain ⟨e, -, -, hs⟩ := hR m hm
    obtain ⟨fields, hf, hfs⟩ := Value.configSection_cases hs
    have := (hms m hm).2
    rw [hf, Value.wellFormed_object_iff] at this
    rw [hf, Value.keys_of_scalars fun f hf => (hfs f hf).2]
    exact this.1
  show ("root".toList :: (membersKeys R ++ [])).Nodup
  rw [List.append_nil, List.nodup_cons]
  exact ⟨root_not_mem_membersKeys hR, membersKeys_nodup hR hnd hkeys⟩

/-- A section of scalars, parsed with what follows it, holds the same values under `keys` as its own
`JSON`, when no key it lacks is written after it. -/
theorem readsAlike_parsed_section {fields : List (List Char × Value)} {c : List Cont}
    {keys : List (List Char)} (hs : ∀ f ∈ fields, f.2.isScalar = true)
    (hnd : ((Value.object fields).keys ++ contKeys c).Nodup)
    (hout : ∀ x ∈ keys, x ∉ fields.map Prod.fst → x ∉ contKeys c) :
    ReadsAlike keys (parsed (.object fields) c).getObjectValue
      (Value.object fields).toJSON.getObjectValue := by
  have hkeys := Value.keys_of_scalars hs
  intro x hx
  by_cases hf : x ∈ fields.map Prod.fst
  · obtain ⟨⟨x', y⟩, hm, hxx⟩ := List.mem_map.1 hf
    obtain rfl : x' = x := hxx
    obtain ⟨c', -, hl⟩ := lookupMember_parsed_own hnd hm
    rw [hl, parsed_of_isScalar (hs _ hm),
      lookupMember_toJSON_of_mem (hkeys ▸ (List.nodup_append.1 hnd).1) hm,
      Value.toJSON_of_isScalar (hs _ hm)]
  · rw [lookupMember_parsed_none hnd (by rw [hkeys, List.mem_append, not_or]; exact ⟨hf, hout x hx hf⟩),
      lookupMember_toJSON_of_not_mem hf]

/-- Every integer of a config file is in the range of `int`, so at most `2^53`. -/
theorem Value.exactInts_of_configFile {v : Value} (h : v.configFile = true) : v.exactInts = true := by
  obtain ⟨R, rfl, hR⟩ := Value.configFile_cases h
  refine Value.exactInts_object_iff.2 fun m hm => ?_
  rw [List.mem_singleton.1 hm]
  refine Value.exactInts_object_iff.2 fun m hm => ?_
  obtain ⟨e, -, -, hs⟩ := hR m hm
  obtain ⟨fields, hf, hfs⟩ := Value.configSection_fits hs
  rw [hf]
  exact Value.exactInts_object_iff.2 fun f hf => Value.exactInts_of_fits (hfs f hf).2

/-- With its strings free of `,`, a config file is read by `Config(filename)` as by a parser that
keeps to the grammar. -/
theorem config_eq_of_comma_free {v : Value} (hwf : v.wellFormed = true) (hnc : v.noComma = true)
    (hcf : v.configFile = true) : Config.ofFile (some (render v)) = parseJSON v.toJSON {} := by
  have hnd := Value.configFile_nodup hwf hcf
  have hx := Value.exactInts_of_configFile hcf
  obtain ⟨R, rfl, hR⟩ := Value.configFile_cases hcf
  have hRnd := (Value.wellFormed_object_iff.1
    ((Value.wellFormed_object_iff.1 hwf).2 _ (List.mem_singleton_self _)).2).1
  have hparse := parse_render_cont _ [] hwf hnc hx (by simp)
  rw [renderCont, List.append_nil] at hparse
  rw [Config.ofFile, hparse, Outcome.ok_bind]
  have hnd0 : ((Value.object [("root".toList, .object R)]).keys ++ contKeys []).Nodup := by
    simpa [contKeys] using hnd
  have hdoc : ∀ x ∈ (Value.object [("root".toList, .object R)]).keys ++ contKeys [],
      x = "root".toList ∨ x ∈ membersKeys R := by
    simp [Value.keys, membersKeys, contKeys]
  obtain ⟨cR, hmemR, hlookR⟩ := lookupMember_parsed_own hnd0 (List.mem_singleton_self _)
  have hsubR := keys_sublist_of_mem_visitsCont hmemR
  have hndR := hsubR.nodup hnd0
  refine parseJSON_congr hlookR (lookupMember_toJSON_of_mem (by simp) (List.mem_singleton_self _))
    (fun e he => ?_) {}
  unfold SectionAlike
  by_cases hn : e.1 ∈ R.map Prod.fst
  · obtain ⟨⟨n, S⟩, hS, hnS⟩ := List.mem_map.1 hn
    obtain rfl : n = e.1 := hnS
    obtain ⟨cS, hmemS, hlookS⟩ := lookupMember_parsed_own hndR hS
    obtain ⟨e', -, -, hsec⟩ := hR _ hS
    obtain ⟨fields, rfl, hfs⟩ := Value.configSection_cases hsec
    have hsubS := keys_sublist_of_mem_visitsCont hmemS
    rw [hlookS, lookupMember_toJSON_of_mem hRnd hS]
    refine .some (readsAlike_parsed_section (fun f hf => (hfs f hf).2) (hsubS.nodup hndR)
      fun x hx hxf hxc => ?_)
    rcases hdoc _ (hsubR.subset (hsubS.subset (List.mem_append_right _ hxc))) with h | h
    · exact (configSchema_root e he).2 (h ▸ hx)
    · obtain ⟨s', hs', hxs'⟩ := key_mem_of_mem_membersKeys hR he hx h
      obtain rfl : s' = .object fields := (Prod.mk.inj (List.inj_on_of_nodup_map hRnd hs' hS rfl)).2
      rw [Value.keys_of_scalars fun f hf => (hfs f hf).2] at hxs'
      exact hxf hxs'
  · have hout : e.1 ∉ (Value.object R).keys ++ contKeys cR := fun h => by
      rcases hdoc _ (hsubR.subset h) with h | h
      · exact (configSchema_root e he).1 h
      · exact hn (name_mem_of_mem_membersKeys hR he h)
    rw [lookupMember_parsed_none hndR hout, lookupMember_toJSON_of_not_mem hn]
    exact .none

/-! ## Every field read

`GetValueOrDefault<std::string>` reads any value, and `GetValueOrDefault<int>` reads a number in
the range of `int` as itself. So where every `int` field of every section holds such a number,
`ParseJSON` returns a `Config`, with no undefined behaviour. -/

theorem Outcome.bind_ok {α β : Type} {o : Outcome α} {f : α → Outcome β} (ho : ∃ a, o = .ok a)
    (hf : ∀ a, ∃ b, f a = .ok b) : ∃ b, o.bind f = .ok b := by
  obtain ⟨a, rfl⟩ := ho
  exact hf a

/-- `static_cast<int>` reads an integer in the range of `int` as itself. -/
theorem readInt_int {neg : Bool} {ds : List Char}
    (h : intMin ≤ intValue neg ds ∧ intValue neg ds ≤ intMax) :
    readInt (scalarJSON (.int neg ds)) = .ok (intValue neg ds) := by
  simp only [readInt, scalarJSON, JSON.getNumberValue, Outcome.ok_bind, castToInt]
  rw [show Nat.pow 10 0 = 1 from rfl, Nat.div_one]
  exact if_pos h

/-- Every `int` field of a section holds a number `static_cast<int>` reads. -/
def FieldsFit (obj : List (List Char × JSON)) : Prop :=
  ∀ x ∈ intKeys, ∀ j, lookupMember x obj = some j → ∃ n, readInt j = .ok n

theorem getValueOrDefault_readString_ok (obj : List (List Char × JSON)) (key d : List Char) :
    ∃ r, getValueOrDefault readString obj key d = .ok r := by
  unfold getValueOrDefault
  split <;> exact ⟨_, rfl⟩

theorem getValueOrDefault_readInt_ok {obj : List (List Char × JSON)} (h : FieldsFit obj)
    {key : List Char} (hk : key ∈ intKeys) (d : Int) :
    ∃ r, getValueOrDefault readInt obj key d = .ok r := by
  unfold getValueOrDefault
  split
  · obtain ⟨n, hn⟩ := h key hk _ ‹_›
    exact ⟨_, by rw [hn]; rfl⟩
  · exact ⟨_, rfl⟩

theorem parseSection_ok {α : Type} (key name : List Char)
    {fill : List (List Char × JSON) → α → Logged α} {root : JSON} (cur : α)
    (h : ∀ s, lookupMember key root.getObjectValue = some s → ∃ r, fill s.getObjectValue cur = .ok r) :
    ∃ r, parseSection key name fill root cur = .ok r := by
  unfold parseSection
  split
  · exact h _ ‹_›
  · exact ⟨_, rfl⟩

section SectionsFit

variable {root : JSON}
  (h : ∀ k s, lookupMember k root.getObjectValue = some s → FieldsFit s.getObjectValue)
include h

theorem parseServerConfig_ok (cur : Config.Server) : ∃ r, parseServerConfig root cur = .ok r :=
  parseSection_ok _ _ cur fun s hs =>
    Outcome.bind_ok (getValueOrDefault_readString_ok _ _ _) fun ⟨_, _⟩ =>
    Outcome.bind_ok (getValueOrDefault_readString_ok _ _ _) fun ⟨_, _⟩ =>
    Outcome.bind_ok (getValueOrDefault_readInt_ok (h _ s hs) (by decide) _) fun ⟨_, _⟩ =>
    Outcome.bind_ok (getValueOrDefault_readString_ok _ _ _) fun ⟨_, _⟩ => ⟨_, rfl⟩

theorem parseCommunicationSettings_ok (cur : Config.CommunicationSettings) :
    ∃ r, parseCommunicationSettings root cur = .ok r :=
  parseSection_ok _ _ cur fun s hs =>
    Outcome.bind_ok (getValueOrDefault_readInt_ok (h _ s hs) (by decide) _) fun ⟨_, _⟩ =>
    Outcome.bind_ok (getValueOrDefault_readInt_ok (h _ s hs) (by decide) _) fun ⟨_, _⟩ => ⟨_, rfl⟩

theorem parseLoggingConfig_ok (cur : Config.Logging) : ∃ r, parseLoggingConfig root cur = .ok r :=
  parseSection_ok _ _ cur fun s hs =>
    Outcome.bind_ok (getValueOrDefault_readString_ok _ _ _) fun ⟨_, _⟩ =>
    Outcome.bind_ok (getValueOrDefault_readInt_ok (h _ s hs) (by decide) _) fun ⟨_, _⟩ =>
    Outcome.bind_ok (getValueOrDefault_readInt_ok (h _ s hs) (by decide) _) fun ⟨_, _⟩ => ⟨_, rfl⟩

theorem parseTimeConfig_ok (cur : Config.Time) : ∃ r, parseTimeConfig root cur = .ok r :=
  parseSection_ok _ _ cur fun s hs =>
    Outcome.bind_ok (getValueOrDefault_readInt_ok (h _ s hs) (by decide) _) fun ⟨_, _⟩ => ⟨_, rfl⟩

theorem parseThreadPoolConfig_ok (cur : Config.ThreadPool) :
    ∃ r, parseThreadPoolConfig root cur = .ok r :=
  parseSection_ok _ _ cur fun s hs =>
    Outcome.bind_ok (getValueOrDefault_readInt_ok (h _ s hs) (by decide) _) fun ⟨_, _⟩ => ⟨_, rfl⟩

/-- `ParseJSON` on a document whose `root` holds sections whose `int` fields all read returns a
`Config`. -/
theorem parseJSON_ok {j : JSON} (hj : lookupMember "root".toList j.getObjectValue = some root)
    (c : Config) : ∃ r, parseJSON j c = .ok r := by
  simp only [parseJSON, hj]
  exact Outcome.bind_ok (parseServerConfig_ok h _) fun ⟨_, _⟩ =>
    Outcome.bind_ok (parseCommunicationSettings_ok h _) fun ⟨_, _⟩ =>
    Outcome.bind_ok (parseLoggingConfig_ok h _) fun ⟨_, _⟩ =>
    Outcome.bind_ok (parseTimeConfig_ok h _) fun ⟨_, _⟩ =>
    Outcome.bind_ok (parseThreadPoolConfig_ok h _) fun ⟨_, _⟩ => ⟨_, rfl⟩

end SectionsFit

/-- A member of an object's `JSON` is the `JSON` of one of its members. -/
theorem mem_of_lookupMember_toJSON {ms : List (List Char × Value)} {k : List Char} {j : JSON}
    (h : lookupMember k (Value.object ms).toJSON.getObjectValue = some j) :
    ∃ w, (k, w) ∈ ms ∧ j = w.toJSON := by
  have hm := lookupMember_mem h
  change (k, j) ∈ membersToJSON ms at hm
  rw [membersToJSON_eq] at hm
  obtain ⟨⟨k', w⟩, hw, ⟨⟩⟩ := List.mem_map.1 hm
  exact ⟨w, hw, rfl⟩

/-- In the `JSON` of a section whose fields fit, every `int` field reads. -/
theorem fieldsFit_toJSON {fields : List (List Char × Value)} (h : ∀ f ∈ fields, f.2.fits f.1 = true) :
    FieldsFit (Value.object fields).toJSON.getObjectValue := by
  intro x hx j hj
  obtain ⟨w, hw, rfl⟩ := mem_of_lookupMember_toJSON hj
  have hfit := h _ hw
  cases w with
  | int neg ds =>
    simp only [Value.fits, Bool.and_eq_true, decide_eq_true_eq] at hfit
    exact ⟨_, readInt_int hfit.2⟩
  | string => simp [Value.fits, hx] at hfit
  | _ => cases hfit

/-- The `JSON` of a config file reads: `ParseJSON` returns a `Config`. -/
theorem parseJSON_toJSON_ok {v : Value} (hcf : v.configFile = true) :
    ∃ r, parseJSON v.toJSON {} = .ok r := by
  obtain ⟨R, rfl, hR⟩ := Value.configFile_cases hcf
  refine parseJSON_ok (fun k s hs => ?_) (lookupMember_toJSON_of_mem (by simp)
    (List.mem_singleton_self _)) {}
  obtain ⟨w, hw, rfl⟩ := mem_of_lookupMember_toJSON hs
  obtain ⟨e, -, -, hsec⟩ := hR _ hw
  obtain ⟨fields, rfl, hfs⟩ := Value.configSection_fits hsec
  exact fieldsFit_toJSON fun f hf => (hfs f hf).2

end SsLogger.Parser

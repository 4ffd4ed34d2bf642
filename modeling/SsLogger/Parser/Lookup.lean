import SsLogger.Parser.Members

set_option autoImplicit false

/-! # Looking members up in a parsed document

`parse_render_cont` says what `Parse` makes of a document with no `,` inside a token: each object
keeps its first member and takes in, after it, every member that follows a `,` later in the text,
at any depth. When no key is written twice in the whole document, none of those members replaces
another. A lookup of an object's own key then finds that member, parsed with what follows it
(`lookupMember_parsed_own`). A lookup of a key written neither in the object nor after it finds
nothing (`lookupMember_parsed_none`). So the parsed document holds every member of the written
one, at every depth, and differs from it only by the members it takes in (`parse_covers`). -/

namespace SsLogger.Parser

/-! ## The keys of a document -/

mutual

/-- The keys written in a value, in order. -/
def Value.keys : Value → List (List Char)
  | .object ms => membersKeys ms
  | _ => []

/-- The keys written in an object's members, in order. -/
def membersKeys : List (List Char × Value) → List (List Char)
  | [] => []
  | (k, v) :: ms => k :: (v.keys ++ membersKeys ms)

end

/-- The keys written in what follows a value. -/
def contKeys : List Cont → List (List Char)
  | [] => []
  | .close :: c => contKeys c
  | .member k v :: c => k :: (v.keys ++ contKeys c)

theorem mem_membersKeys {x : List Char} {ms : List (List Char × Value)} :
    x ∈ membersKeys ms ↔ ∃ m ∈ ms, x = m.1 ∨ x ∈ m.2.keys := by
  induction ms with
  | nil => simp [membersKeys]
  | cons m ms ih =>
    obtain ⟨k, v⟩ := m
    simp [membersKeys, ih, or_assoc]

theorem contKeys_append (c d : List Cont) : contKeys (c ++ d) = contKeys c ++ contKeys d := by
  induction c with
  | nil => rfl
  | cons x c ih => cases x <;> simp [contKeys, ih]

theorem contKeys_ofMembers (ms : List (List Char × Value)) :
    contKeys (Cont.ofMembers ms) = membersKeys ms := by
  induction ms with
  | nil => rfl
  | cons m ms ih =>
    obtain ⟨k, v⟩ := m
    rw [Cont.ofMembers_cons, contKeys, membersKeys, ih]

/-- The keys of an object and what follows it are those of its members, its `}` and what follows
it. -/
theorem keys_object (ms : List (List Char × Value)) (c : List Cont) :
    (Value.object ms).keys ++ contKeys c = contKeys (Cont.ofMembers ms ++ .close :: c) := by
  rw [contKeys_append, contKeys, contKeys_ofMembers]
  rfl

/-- Each member `visits` lists, with the keys of its value and of what follows it, is written in
the value or after it. -/
theorem visits_keys : ∀ v c, ∀ m ∈ visits v c,
    (m.1 :: (m.2.1.keys ++ contKeys m.2.2)).Sublist (v.keys ++ contKeys c) := by
  refine visits.induct (fun v c => ∀ m ∈ visits v c,
      (m.1 :: (m.2.1.keys ++ contKeys m.2.2)).Sublist (v.keys ++ contKeys c))
    (fun c => ∀ m ∈ visitsCont c, (m.1 :: (m.2.1.keys ++ contKeys m.2.2)).Sublist (contKeys c))
    ?_ ?_ ?_ ?_ ?_
  · intro k w ms c ih m hm
    rw [keys_object, Cont.ofMembers_cons, List.cons_append, contKeys]
    exact (ih m (visits_object_cons k w ms c ▸ hm)).cons k
  · intro v c _ ih m hm
    exact (ih m (visits_of_ne ‹_› c ▸ hm)).trans (List.sublist_append_right _ _)
  · intro m hm
    simp at hm
  · intro c ih m hm
    exact ih m (visitsCont_close c ▸ hm)
  · intro k v c ih m hm
    rw [visitsCont_member, List.mem_cons] at hm
    rcases hm with rfl | hm
    · exact List.Sublist.refl _
    · exact (ih m hm).cons k

/-- The keys of the members `visits` lists are written, in that order, in the value or after
it. -/
theorem visits_keys_sublist : ∀ v c, ((visits v c).map (·.1)).Sublist (v.keys ++ contKeys c) := by
  refine visits.induct (fun v c => ((visits v c).map (·.1)).Sublist (v.keys ++ contKeys c))
    (fun c => ((visitsCont c).map (·.1)).Sublist (contKeys c)) ?_ ?_ ?_ ?_ ?_
  · intro k w ms c ih
    rw [visits_object_cons, keys_object, Cont.ofMembers_cons, List.cons_append, contKeys]
    exact ih.cons k
  · intro v c hv ih
    rw [visits_of_ne hv c]
    exact ih.trans (List.sublist_append_right _ _)
  · simp
  · intro c ih
    rwa [visitsCont_close]
  · intro k v c ih
    rw [visitsCont_member, List.map_cons]
    exact ih.cons₂ k

/-! ## Where an object's members are listed -/

mutual

/-- What `visitsCont` lists after a value, `visits` lists too, after the value's own members. -/
theorem mem_visits_of_mem_visitsCont (v : Value) (c : List Cont) {m : List Char × Value × List Cont}
    (hm : m ∈ visitsCont c) : m ∈ visits v c := by
  match v with
  | .object ((k, w) :: ms) =>
    rw [visits_object_cons]
    exact mem_visits_of_mem_visitsCont w _ (mem_visitsCont_ofMembers ms _ (visitsCont_close c ▸ hm))
  | .object [] | .string _ | .int _ _ | .bool _ | .null => rwa [visits_of_ne (by simp)]
termination_by v.weight
decreasing_by
  all_goals simp_wf
  all_goals simp only [Value.weight, membersWeight]
  all_goals omega

/-- What `visitsCont` lists after an object's members, it lists after the members too. -/
theorem mem_visitsCont_ofMembers (ms : List (List Char × Value)) (c : List Cont)
    {m : List Char × Value × List Cont} (hm : m ∈ visitsCont c) :
    m ∈ visitsCont (Cont.ofMembers ms ++ c) := by
  match ms with
  | [] => exact hm
  | (k, v) :: ms =>
    rw [Cont.ofMembers_cons, List.cons_append, visitsCont_member]
    exact List.mem_cons_of_mem _ (mem_visits_of_mem_visitsCont v _ (mem_visitsCont_ofMembers ms c hm))
termination_by membersWeight ms
decreasing_by
  all_goals simp_wf
  all_goals simp only [membersWeight]
  all_goals omega

end

/-- Each member of an object is listed by `visitsCont` of its members, with what follows it. -/
theorem exists_mem_visitsCont_ofMembers {k : List Char} {v : Value}
    {ms : List (List Char × Value)} (h : (k, v) ∈ ms) (c : List Cont) :
    ∃ c', (k, v, c') ∈ visitsCont (Cont.ofMembers ms ++ c) := by
  induction ms with
  | nil => cases h
  | cons m ms ih =>
    obtain ⟨k', v'⟩ := m
    rw [Cont.ofMembers_cons, List.cons_append, visitsCont_member]
    rcases List.mem_cons.1 h with h | h
    · obtain ⟨rfl, rfl⟩ := Prod.mk.inj h
      exact ⟨_, List.mem_cons_self _ _⟩
    · obtain ⟨c', hc'⟩ := ih h
      exact ⟨c', List.mem_cons_of_mem _ (mem_visits_of_mem_visitsCont v' _ hc')⟩

/-! ## Lookups -/

/-- With no key written twice, a parsed object is its members, then the members it takes in, each
parsed with what follows it: the members `visitsCont` lists after its `{`. -/
theorem parsed_object_of_nodup {ms : List (List Char × Value)} (hms : ms ≠ []) {c : List Cont}
    (hnd : ((Value.object ms).keys ++ contKeys c).Nodup) :
    parsed (.object ms) c = .object ((visitsCont (Cont.ofMembers ms ++ .close :: c)).map
      fun m => (m.1, parsed m.2.1 m.2.2)) := by
  obtain ⟨⟨k, w⟩, ms, rfl⟩ := List.exists_cons_of_ne_nil hms
  have hsub := visits_keys_sublist .null (Cont.ofMembers ((k, w) :: ms) ++ .close :: c)
  rw [visits_null, ← keys_object] at hsub
  rw [parsed_object_cons, foldl_insertMember_of_nodup, Cont.ofMembers_cons,
    List.cons_append (Cont.member k w), visitsCont_member, List.map_cons]
  · rfl
  · simpa [List.map_map, Function.comp_def] using hsub.nodup hnd

/-- With no key written twice, each member of a parsed object is found under its key, parsed with
what follows it. -/
theorem lookupMember_parsed_own {ms : List (List Char × Value)} {c : List Cont} {k : List Char}
    {v : Value} (hnd : ((Value.object ms).keys ++ contKeys c).Nodup) (h : (k, v) ∈ ms) :
    ∃ c', (k, v, c') ∈ visitsCont (Cont.ofMembers ms ++ .close :: c) ∧
      lookupMember k (parsed (.object ms) c).getObjectValue = some (parsed v c') := by
  obtain ⟨c', hc'⟩ := exists_mem_visitsCont_ofMembers h (.close :: c)
  have hsub := visits_keys_sublist .null (Cont.ofMembers ms ++ .close :: c)
  rw [visits_null, ← keys_object] at hsub
  have hkeys := hsub.nodup hnd
  refine ⟨c', hc', ?_⟩
  rw [parsed_object_of_nodup (List.ne_nil_of_mem h) hnd]
  exact lookupMember_of_mem (by simpa [JSON.getObjectValue, List.map_map, Function.comp_def] using hkeys)
    (List.mem_map_of_mem (fun m => (m.1, parsed m.2.1 m.2.2)) hc')

/-- A key written neither in an object nor after it is not in the parsed object. -/
theorem lookupMember_parsed_none {ms : List (List Char × Value)} {c : List Cont} {x : List Char}
    (hnd : ((Value.object ms).keys ++ contKeys c).Nodup)
    (hx : x ∉ (Value.object ms).keys ++ contKeys c) :
    lookupMember x (parsed (.object ms) c).getObjectValue = none := by
  rcases ms with _ | ⟨m, ms⟩
  · rw [parsed_of_ne (by simp)]
    rfl
  have hsub := visits_keys_sublist .null (Cont.ofMembers (m :: ms) ++ .close :: c)
  rw [visits_null, ← keys_object] at hsub
  rw [parsed_object_of_nodup (List.cons_ne_nil _ _) hnd]
  exact lookupMember_eq_none fun h => hx (hsub.subset (by simpa [JSON.getObjectValue, List.map_map] using h))

/-- The keys of a member's value and of what follows it are written in its object or after it. -/
theorem keys_sublist_of_mem_visitsCont {ms : List (List Char × Value)} {c c' : List Cont}
    {k : List Char} {v : Value} (h : (k, v, c') ∈ visitsCont (Cont.ofMembers ms ++ .close :: c)) :
    (v.keys ++ contKeys c').Sublist ((Value.object ms).keys ++ contKeys c) := by
  have hsub := visits_keys .null _ _ ((visits_null _).symm ▸ h)
  rw [← keys_object] at hsub
  exact (List.sublist_cons_self _ _).trans hsub

/-! ## Every member is kept -/

mutual

/-- `j` holds everything `v` holds: a scalar's value, as `agrees` compares it, and for an object
every member, under its key, with a value that holds the member's. Unlike `agrees`, `j` may hold
other members too. -/
def covers : Value → JSON → Bool
  | .object ms, .object js => coversMembers ms js
  | v, j => agrees v j

/-- Every member is in `js` under its key, with a value that holds the member's. -/
def coversMembers : List (List Char × Value) → List (List Char × JSON) → Bool
  | [], _ => true
  | (k, v) :: ms, js =>
    (match lookupMember k js with
      | some j => covers v j
      | none => false) && coversMembers ms js

end

theorem coversMembers_of {js : List (List Char × JSON)} : ∀ {ms : List (List Char × Value)},
    (∀ m ∈ ms, ∃ j, lookupMember m.1 js = some j ∧ covers m.2 j = true) →
      coversMembers ms js = true
  | [], _ => rfl
  | (k, v) :: ms, h => by
    obtain ⟨j, hj, ha⟩ := h (k, v) (List.mem_cons_self _ _)
    simp [coversMembers, hj, ha, coversMembers_of fun m hm => h m (List.mem_cons_of_mem _ hm)]

/-- A parsed object is an object. -/
theorem parsed_object (ms : List (List Char × Value)) (c : List Cont) :
    parsed (.object ms) c = .object (parsed (.object ms) c).getObjectValue := by
  rcases ms with _ | ⟨⟨k, w⟩, ms⟩
  · rw [parsed_of_ne (by simp)]
    rfl
  · rw [parsed_object_cons]
    rfl

/-- With no key written twice, the parse of a value, with what follows it, holds everything the
value holds. -/
theorem covers_parsed (v : Value) (c : List Cont) (hwf : v.wellFormed = true)
    (hnc : v.noComma = true) (hx : v.exactInts = true) (hc : ∀ x ∈ c, x.good = true)
    (hnd : (v.keys ++ contKeys c).Nodup) : covers v (parsed v c) = true := by
  match v, hwf, hnc, hx with
  | .object ms, hwf, hnc, hx =>
    rw [parsed_object]
    refine coversMembers_of fun ⟨k, v⟩ hm => ?_
    obtain ⟨c', hmem, hlook⟩ := lookupMember_parsed_own hnd hm
    have hnd' := (keys_sublist_of_mem_visitsCont hmem).nodup hnd
    rw [← visits_null] at hmem
    obtain ⟨hg, hc'⟩ := visits_good .null _ rfl rfl rfl (Cont.good_ofMembers hwf hnc hx hc) _ hmem
    obtain ⟨-, -, hwf', hnc', hx'⟩ := Cont.good_member hg
    have hw : v.weight + contWeight c' < membersWeight ms + 2 + contWeight c := by
      have : v.weight + contWeight c' < 1 + contWeight (Cont.ofMembers ms ++ .close :: c) :=
        visits_weight _ _ _ hmem
      simp only [contWeight_append, contWeight_ofMembers, contWeight] at this
      omega
    exact ⟨_, hlook, covers_parsed v c' hwf' hnc' hx' hc' hnd'⟩
  | .string _, _, _, _ | .int _ _, _, _, _ | .bool _, _, _, _ | .null, _, _, _ =>
    rw [parsed_of_ne (by simp)]
    exact agrees_scalarJSON rfl
termination_by v.weight + contWeight c
decreasing_by
  simp_wf
  simp only [Value.weight]
  omega

/-- `Parse` of a well-formed document with no `,` inside a token, no integer above `2^53` and no
key written twice keeps every member of the document, at every depth, under its key: what it gets
wrong is only the members it adds. -/
theorem parse_covers {v : Value} (hwf : v.wellFormed = true) (hnc : v.noComma = true)
    (hx : v.exactInts = true) (hnd : v.keys.Nodup) :
    ∃ j, JSON.parse (render v) = .ok j ∧ covers v j = true :=
  ⟨parsed v [], by simpa [renderCont] using parse_render_cont v [] hwf hnc hx (by simp),
    covers_parsed v [] hwf hnc hx (by simp) (by simpa [contKeys] using hnd)⟩

/-- The document `{"a":{"b":null},"c":null}`, whose parse gives `a` the member `c` too. -/
theorem parse_covers_nested :
    (Value.object [("a".toList, .object [("b".toList, .null)]), ("c".toList, .null)]).wellFormed ∧
      (Value.object [("a".toList, .object [("b".toList, .null)]), ("c".toList, .null)]).noComma ∧
      (Value.object [("a".toList, .object [("b".toList, .null)]), ("c".toList, .null)]).exactInts ∧
      (Value.object [("a".toList, .object [("b".toList, .null)]), ("c".toList, .null)]).keys.Nodup ∧
      ∃ j, JSON.parse (render (.object [("a".toList, .object [("b".toList, .null)]),
        ("c".toList, .null)])) = .ok j ∧
        covers (.object [("a".toList, .object [("b".toList, .null)]), ("c".toList, .null)]) j :=
  ⟨rfl, rfl, rfl, by decide, parse_covers rfl rfl rfl (by decide)⟩

end SsLogger.Parser

import SsLogger.Parser.RoundTrip

set_option autoImplicit false

/-! # Where `ParseObject` finds its members

`ParseObject` reads its first member where the object starts. After that it never looks for the
object's `}`: each turn of its loop starts where the previous member's value starts, and reads the
next member after the next `,`, wherever that is. So an object's members are its first one and
then one for every `,` in the rest of the text (`objectLoop_commaSuffixes`). -/

namespace SsLogger.Parser

/-! ## The members after each `,` -/

/-- The text after each `,`, in order. -/
def commaSuffixes : List Char → List (List Char)
  | [] => []
  | c :: r => if c = ',' then r :: commaSuffixes r else commaSuffixes r

theorem commaSuffixes_append_of_not_mem {p : List Char} (hp : ',' ∉ p) (t : List Char) :
    commaSuffixes (p ++ t) = commaSuffixes t := by
  induction p with
  | nil => rfl
  | cons c p ih =>
    simp only [List.mem_cons, not_or] at hp
    rw [List.cons_append, commaSuffixes, if_neg (Ne.symm hp.1), ih hp.2]

/-- The loop looks for a member after the first where the text after the next `,` starts. -/
theorem nextMember_false (cs : List Char) : nextMember false cs = (commaSuffixes cs).head? := by
  induction cs with
  | nil => rfl
  | cons c r ih =>
    by_cases hc : c = ','
    · subst hc
      simp [nextMember, commaSuffixes]
    · simp only [nextMember, commaSuffixes, if_neg hc, ← ih, Bool.false_eq_true, if_false]
      rw [List.dropWhile_cons_of_pos (by simpa using hc)]

theorem commaSuffixes_eq_cons {cs s : List Char} {rest : List (List Char)}
    (h : commaSuffixes cs = s :: rest) : rest = commaSuffixes s ∧ s.length < cs.length := by
  induction cs with
  | nil => cases h
  | cons c r ih =>
    by_cases hc : c = ','
    · simp only [commaSuffixes, if_pos hc, List.cons.injEq] at h
      obtain ⟨rfl, rfl⟩ := h
      exact ⟨rfl, by simp⟩
    · simp only [commaSuffixes, if_neg hc] at h
      obtain ⟨h1, h2⟩ := ih h
      exact ⟨h1, by simp only [List.length_cons]; omega⟩

/-- `s` starts a member `key` whose value text parses to `j`: the value text starts with neither
`}`, blanks nor `,`, and holds every `,` that `s` holds. -/
def GoodMember (s key : List Char) (j : JSON) : Prop :=
  ∃ r, memberHead s = some (key, r) ∧ r ≠ [] ∧ afterValue r = r ∧ r.head? ≠ some '\x7d' ∧
    commaSuffixes r = commaSuffixes s ∧ JSON.parse r = .ok j

/-- After its first member, `ParseObject` reads one member after every `,` of the rest of the
text, in order, and adds each with `m_object_value[key] = value`. -/
theorem objectLoop_commaSuffixes : ∀ (ms : List (List Char × JSON)) (fuel : ℕ)
    (obj : List (List Char × JSON)) (cs : List Char),
    List.Forall₂ (fun s m => GoodMember s m.1 m.2) (commaSuffixes cs) ms →
    cs.head? ≠ some '\x7d' → cs.length < fuel →
    objectLoop fuel false obj cs = .ok (.object (ms.foldl (fun o m => insertMember m.1 m.2 o) obj))
  | [], fuel, obj, cs, h, hb, hf => by
    obtain ⟨f, rfl⟩ : ∃ f, fuel = f + 1 := ⟨fuel - 1, by omega⟩
    rw [List.forall₂_nil_right_iff] at h
    rw [objectLoop, if_neg hb, nextMember_false, h]
    rfl
  | (k, j) :: ms, fuel, obj, cs, h, hb, hf => by
    obtain ⟨s, rest, hgood, hrest, hcs⟩ := List.forall₂_cons_right_iff.1 h
    obtain ⟨r, hm, hr, hav, hrb, hrc, hp⟩ := hgood
    obtain ⟨hrest_eq, hslen⟩ := commaSuffixes_eq_cons hcs
    obtain ⟨f, rfl⟩ : ∃ f, fuel = f + 1 := ⟨fuel - 1, by omega⟩
    have hrlen := memberHead_length hm
    rw [objectLoop, if_neg hb, nextMember_false, hcs]
    simp only [List.head?_cons, hm, if_neg hr, parseFuel_eq (show r.length < f by omega), hp,
      Outcome.ok_bind, hav]
    exact objectLoop_commaSuffixes ms f _ r (by rw [hrc, ← hrest_eq]; exact hrest) hrb (by omega)

/-- `ParseObject` on the text after its `{`: the first member, then one member after every `,`
that follows. -/
theorem objectLoop_true {fuel : ℕ} {cs key : List Char} {j : JSON} {ms : List (List Char × JSON)}
    (h₁ : GoodMember cs key j) (hb : cs.head? ≠ some '\x7d')
    (h : List.Forall₂ (fun s m => GoodMember s m.1 m.2) (commaSuffixes cs) ms)
    (hf : cs.length < fuel) :
    objectLoop fuel true [] cs =
      .ok (.object (ms.foldl (fun o m => insertMember m.1 m.2 o) [(key, j)])) := by
  obtain ⟨r, hm, hr, hav, hrb, hrc, hp⟩ := h₁
  obtain ⟨f, rfl⟩ : ∃ f, fuel = f + 1 := ⟨fuel - 1, by omega⟩
  have hrlen := memberHead_length hm
  rw [objectLoop, if_neg hb]
  simp only [nextMember, if_true, hm, if_neg hr, parseFuel_eq (show r.length < f by omega), hp,
    Outcome.ok_bind, hav]
  exact objectLoop_commaSuffixes ms f _ r (by rwa [hrc]) hrb (by omega)

/-! ## Rendered documents -/

/-- What follows a value in a rendered document: the `}` of an object around it, or a further
member `,"key":value` of one. -/
inductive Cont where
  | close
  | member (key : List Char) (v : Value)

/-- The text of what follows a value. -/
def renderCont : List Cont → List Char
  | [] => []
  | .close :: c => '\x7d' :: renderCont c
  | .member k v :: c => ',' :: '"' :: (k ++ '"' :: ':' :: (render v ++ renderCont c))

/-- The members of an object after its first, as what follows the first member's value. -/
def Cont.ofMembers (ms : List (List Char × Value)) : List Cont := ms.map fun m => .member m.1 m.2

@[simp] theorem Cont.ofMembers_nil : Cont.ofMembers [] = [] := rfl

@[simp] theorem Cont.ofMembers_cons (k : List Char) (v : Value) (ms : List (List Char × Value)) :
    Cont.ofMembers ((k, v) :: ms) = .member k v :: Cont.ofMembers ms :=
  rfl

/-- The text of a member `"key":value` and what follows it. -/
def memberText (k : List Char) (v : Value) (c : List Cont) : List Char :=
  '"' :: (k ++ '"' :: ':' :: (render v ++ renderCont c))

theorem renderCont_member (k : List Char) (v : Value) (c : List Cont) :
    renderCont (.member k v :: c) = ',' :: memberText k v c :=
  rfl

/-- A key with no `,` in it adds no `,` to its member's text. -/
theorem commaSuffixes_memberText {k : List Char} (hk : ',' ∉ k) (v : Value) (c : List Cont) :
    commaSuffixes (memberText k v c) = commaSuffixes (render v ++ renderCont c) := by
  have hp : ',' ∉ '"' :: (k ++ ['"', ':']) := by simpa using hk
  simpa using commaSuffixes_append_of_not_mem hp (render v ++ renderCont c)

theorem renderCont_append (c d : List Cont) : renderCont (c ++ d) = renderCont c ++ renderCont d := by
  induction c with
  | nil => rfl
  | cons x c ih => cases x <;> simp [renderCont, ih]

theorem renderTail_eq (ms : List (List Char × Value)) :
    renderTail ms = renderCont (Cont.ofMembers ms ++ [.close]) := by
  induction ms with
  | nil => rfl
  | cons m ms ih => simp [renderTail, Cont.ofMembers, renderCont, ih]

/-- An object with a first member is its `{` and that member, followed by the other members and
the `}`. -/
theorem render_object_cons (k : List Char) (v : Value) (ms : List (List Char × Value))
    (c : List Cont) :
    render (.object ((k, v) :: ms)) ++ renderCont c =
      '\x7b' :: memberText k v (Cont.ofMembers ms ++ .close :: c) := by
  have h := renderMembers_append k v ms
  rw [renderTail_eq] at h
  rw [render, List.cons_append, h]
  simp [memberText, renderCont, renderCont_append]

/-! ## The members a rendered document holds after each `,` -/

mutual

/-- A measure of a value, for the recursion over a document. -/
def Value.weight : Value → ℕ
  | .object ms => membersWeight ms + 2
  | _ => 1

/-- The measure of an object's members. -/
def membersWeight : List (List Char × Value) → ℕ
  | [] => 0
  | (_, v) :: ms => v.weight + membersWeight ms + 2

end

/-- The measure of what follows a value. -/
def contWeight : List Cont → ℕ
  | [] => 0
  | .close :: c => contWeight c + 1
  | .member _ v :: c => v.weight + contWeight c + 2

theorem contWeight_append (c d : List Cont) : contWeight (c ++ d) = contWeight c + contWeight d := by
  induction c with
  | nil => simp [contWeight]
  | cons x c ih => cases x <;> simp only [List.cons_append, contWeight, List.append_eq, ih] <;> omega

theorem contWeight_ofMembers (ms : List (List Char × Value)) :
    contWeight (Cont.ofMembers ms) = membersWeight ms := by
  induction ms with
  | nil => rfl
  | cons m ms ih => simp [Cont.ofMembers, contWeight, membersWeight, ← ih]

mutual

/-- The members that follow a `,` in the text of `v` and what follows it, in order: each with its
key, its value and what follows the value. -/
def visits : Value → List Cont → List (List Char × Value × List Cont)
  | .object ((_, v) :: ms), c => visits v (Cont.ofMembers ms ++ .close :: c)
  | _, c => visitsCont c
termination_by v c => v.weight + contWeight c + 1
decreasing_by
  all_goals simp_wf
  all_goals (try simp only [Value.weight, membersWeight, contWeight_append, contWeight_ofMembers,
    contWeight]); omega

/-- The members that follow a `,` in what follows a value. -/
def visitsCont : List Cont → List (List Char × Value × List Cont)
  | [] => []
  | .close :: c => visitsCont c
  | .member k v :: c => (k, v, c) :: visits v c
termination_by c => contWeight c
decreasing_by
  all_goals simp_wf
  all_goals simp only [contWeight]; omega

end

theorem visits_object_cons (k : List Char) (w : Value) (ms : List (List Char × Value))
    (c : List Cont) : visits (.object ((k, w) :: ms)) c = visits w (Cont.ofMembers ms ++ .close :: c) := by
  rw [visits]

theorem visits_of_ne {v : Value} (h : ∀ k w ms, v ≠ .object ((k, w) :: ms)) (c : List Cont) :
    visits v c = visitsCont c := by
  rw [visits]
  exact fun k w ms hv => h k w ms hv

@[simp] theorem visitsCont_nil : visitsCont [] = [] := by rw [visitsCont]

/-- `visits` of a scalar is `visitsCont`: what holds of every `visits` holds of `visitsCont`. -/
theorem visits_null (c : List Cont) : visits .null c = visitsCont c :=
  visits_of_ne (by simp) c

@[simp] theorem visitsCont_close (c : List Cont) : visitsCont (.close :: c) = visitsCont c := by
  rw [visitsCont]

@[simp] theorem visitsCont_member (k : List Char) (v : Value) (c : List Cont) :
    visitsCont (.member k v :: c) = (k, v, c) :: visits v c := by
  rw [visitsCont]

/-! ## Documents with no `,` inside a token -/

mutual

/-- No `,` in a key or a string of the value. -/
def Value.noComma : Value → Bool
  | .object ms => membersNoComma ms
  | .string s => !s.contains ','
  | _ => true

/-- No `,` in the members' keys, nor in their values' keys and strings. -/
def membersNoComma : List (List Char × Value) → Bool
  | [] => true
  | (k, v) :: ms => !k.contains ',' && v.noComma && membersNoComma ms

end

/-- What may follow a value: a `}`, or a member whose key holds no `"`, `\` or `,` and whose value
is well formed, with no `,` in its keys and strings and no integer above `2^53`. -/
def Cont.good : Cont → Bool
  | .close => true
  | .member k v => k.all plainChar && !k.contains ',' && v.wellFormed && v.noComma && v.exactInts

theorem Cont.good_member {k : List Char} {v : Value} (h : (Cont.member k v).good = true) :
    (∀ x ∈ k, x ≠ '"') ∧ ',' ∉ k ∧ v.wellFormed = true ∧ v.noComma = true ∧
      v.exactInts = true := by
  simp only [Cont.good, Bool.and_eq_true, Bool.not_eq_true', List.all_eq_true, plainChar,
    bne_iff_ne, ne_eq] at h
  exact ⟨fun x hx => (h.1.1.1.1 x hx).1, by simpa using h.1.1.1.2, h.1.1.2, h.1.2, h.2⟩

theorem membersNoComma_iff {ms : List (List Char × Value)} :
    membersNoComma ms = true ↔ ∀ m ∈ ms, m.1.contains ',' = false ∧ m.2.noComma = true := by
  induction ms with
  | nil => simp [membersNoComma]
  | cons m ms ih =>
    obtain ⟨k, v⟩ := m
    simp only [membersNoComma, Bool.and_eq_true, Bool.not_eq_true', ih, List.mem_cons,
      forall_eq_or_imp, and_assoc]

/-- The members of a well-formed object with no `,` in its tokens, and its `}`, may follow a
value. -/
theorem Cont.good_ofMembers {ms : List (List Char × Value)} {c : List Cont}
    (hwf : (Value.object ms).wellFormed = true) (hnc : (Value.object ms).noComma = true)
    (hx : (Value.object ms).exactInts = true) (hc : ∀ x ∈ c, x.good = true) :
    ∀ x ∈ Cont.ofMembers ms ++ .close :: c, x.good = true := by
  rw [Value.wellFormed_object_iff] at hwf
  rw [Value.exactInts_object_iff] at hx
  simp only [Value.noComma, membersNoComma_iff] at hnc
  intro x hx
  simp only [Cont.ofMembers, List.mem_append, List.mem_map, List.mem_cons] at hx
  rcases hx with ⟨m, hm, rfl⟩ | rfl | hx
  · have hk : ',' ∉ m.1 := by simpa using (hnc m hm).1
    simp [Cont.good, (hwf.2 m hm).1, (hwf.2 m hm).2, (hnc m hm).2, hx m hm, hk]
  · rfl
  · exact hc x hx

/-- The first member of such an object may follow a value, and the other members and the `}` may
follow the first member's value. -/
theorem Cont.good_object_cons {k : List Char} {w : Value} {ms : List (List Char × Value)}
    {c : List Cont} (hwf : (Value.object ((k, w) :: ms)).wellFormed = true)
    (hnc : (Value.object ((k, w) :: ms)).noComma = true)
    (hx : (Value.object ((k, w) :: ms)).exactInts = true) (hc : ∀ x ∈ c, x.good = true) :
    (Cont.member k w).good = true ∧ ∀ x ∈ Cont.ofMembers ms ++ .close :: c, x.good = true :=
  have h := Cont.good_ofMembers hwf hnc hx hc
  ⟨h _ (List.mem_cons_self _ _), fun x hx => h x (List.mem_cons_of_mem _ hx)⟩

theorem Value.plainScalar_of_noComma {v : Value} (hs : v.isScalar = true) (h : v.noComma = true) :
    v.plainScalar = true := by
  cases v with
  | object => cases hs
  | string s => simpa [Value.noComma, Value.plainScalar] using h
  | _ => rfl

/-- A value with no first member, an empty object or a scalar, renders with no `,`. -/
theorem commaSuffixes_render_of_ne {v : Value} (hv : ∀ k w ms, v = .object ((k, w) :: ms) → False)
    (hwf : v.wellFormed = true) (hnc : v.noComma = true) (t : List Char) :
    commaSuffixes (render v ++ t) = commaSuffixes t := by
  cases v with
  | object ms =>
    cases ms with
    | nil => rfl
    | cons m ms => exact absurd rfl (hv m.1 m.2 ms)
  | _ =>
    obtain ⟨_, _, _, _, _, _, hx⟩ :=
      render_plainScalar (Value.plainScalar_of_noComma (by rfl) hnc) hwf
    exact commaSuffixes_append_of_not_mem (fun h => hx _ h rfl) t

/-- The `,`s of a rendered value and what follows it start the members `visits` lists. -/
theorem commaSuffixes_render : ∀ v c, v.wellFormed = true → v.noComma = true →
    v.exactInts = true → (∀ x ∈ c, x.good = true) →
    commaSuffixes (render v ++ renderCont c) = (visits v c).map fun m => memberText m.1 m.2.1 m.2.2 := by
  refine visits.induct (fun v c => v.wellFormed = true → v.noComma = true →
      v.exactInts = true → (∀ x ∈ c, x.good = true) →
      commaSuffixes (render v ++ renderCont c) = (visits v c).map fun m => memberText m.1 m.2.1 m.2.2)
    (fun c => (∀ x ∈ c, x.good = true) →
      commaSuffixes (renderCont c) = (visitsCont c).map fun m => memberText m.1 m.2.1 m.2.2)
    ?_ ?_ ?_ ?_ ?_
  · intro k w ms c ih hwf hnc hx hc
    obtain ⟨hg, hc'⟩ := Cont.good_object_cons hwf hnc hx hc
    obtain ⟨-, hk, hwf', hnc', hx'⟩ := Cont.good_member hg
    rw [render_object_cons, commaSuffixes, if_neg (by decide), commaSuffixes_memberText hk,
      visits_object_cons]
    exact ih hwf' hnc' hx' hc'
  · intro v c hv ih hwf hnc _ hc
    rw [commaSuffixes_render_of_ne hv hwf hnc, visits_of_ne hv c]
    exact ih hc
  · intro _
    rw [visitsCont_nil]
    rfl
  · intro c ih hc
    rw [visitsCont_close, ← ih fun x hx => hc x (List.mem_cons_of_mem _ hx)]
    rfl
  · intro k v c ih hc
    obtain ⟨-, hk, hwf, hnc, hx⟩ := Cont.good_member (hc _ (List.mem_cons_self _ _))
    rw [renderCont_member, commaSuffixes, if_pos rfl, commaSuffixes_memberText hk,
      visitsCont_member, List.map_cons, ih hwf hnc hx fun x hx => hc x (List.mem_cons_of_mem _ hx)]

/-! ## What `Parse` makes of a rendered document -/

theorem Value.weight_pos (v : Value) : 0 < v.weight := by
  cases v <;> simp [Value.weight]

/-- Each member `visits` lists, with what follows its value, is smaller than the value and what
follows it. -/
theorem visits_weight : ∀ v c, ∀ m ∈ visits v c,
    m.2.1.weight + contWeight m.2.2 < v.weight + contWeight c := by
  refine visits.induct (fun v c => ∀ m ∈ visits v c,
      m.2.1.weight + contWeight m.2.2 < v.weight + contWeight c)
    (fun c => ∀ m ∈ visitsCont c, m.2.1.weight + contWeight m.2.2 < contWeight c) ?_ ?_ ?_ ?_ ?_
  · intro k w ms c ih m hm
    have := ih m (visits_object_cons k w ms c ▸ hm)
    simp only [contWeight_append, contWeight_ofMembers, contWeight, Value.weight,
      membersWeight] at this ⊢
    omega
  · intro v c hv ih m hm
    have := ih m (visits_of_ne hv c ▸ hm)
    have := v.weight_pos
    omega
  · intro m hm
    simp at hm
  · intro c ih m hm
    have := ih m (visitsCont_close c ▸ hm)
    simp only [contWeight]
    omega
  · intro k v c ih m hm
    rw [visitsCont_member, List.mem_cons] at hm
    simp only [contWeight]
    rcases hm with rfl | hm
    · show v.weight + contWeight c < _
      omega
    · have := ih m hm
      omega

/-- In a document with no `,` inside a token, each member `visits` lists is one that may follow a
value, and so is everything that follows its value. -/
theorem visits_good : ∀ v c, v.wellFormed = true → v.noComma = true → v.exactInts = true →
    (∀ x ∈ c, x.good = true) →
    ∀ m ∈ visits v c, (Cont.member m.1 m.2.1).good = true ∧ ∀ x ∈ m.2.2, x.good = true := by
  refine visits.induct (fun v c => v.wellFormed = true → v.noComma = true → v.exactInts = true →
      (∀ x ∈ c, x.good = true) →
      ∀ m ∈ visits v c, (Cont.member m.1 m.2.1).good = true ∧ ∀ x ∈ m.2.2, x.good = true)
    (fun c => (∀ x ∈ c, x.good = true) →
      ∀ m ∈ visitsCont c, (Cont.member m.1 m.2.1).good = true ∧ ∀ x ∈ m.2.2, x.good = true)
    ?_ ?_ ?_ ?_ ?_
  · intro k w ms c ih hwf hnc hx hc m hm
    obtain ⟨hg, hc'⟩ := Cont.good_object_cons hwf hnc hx hc
    obtain ⟨-, -, hwf', hnc', hx'⟩ := Cont.good_member hg
    exact ih hwf' hnc' hx' hc' m (visits_object_cons k w ms c ▸ hm)
  · intro v c hv ih _ _ _ hc m hm
    exact ih hc m (visits_of_ne hv c ▸ hm)
  · intro _ m hm
    simp at hm
  · intro c ih hc m hm
    exact ih (fun x hx => hc x (List.mem_cons_of_mem _ hx)) m (visitsCont_close c ▸ hm)
  · intro k v c ih hc m hm
    have hg := hc _ (List.mem_cons_self _ _)
    have hc' : ∀ x ∈ c, x.good = true := fun x hx => hc x (List.mem_cons_of_mem _ hx)
    rw [visitsCont_member, List.mem_cons] at hm
    rcases hm with rfl | hm
    · exact ⟨hg, hc'⟩
    · obtain ⟨-, -, hwf, hnc, hx⟩ := Cont.good_member hg
      exact ih hwf hnc hx hc' m hm

/-- The rendering of a well-formed value with no `,` in its tokens starts with a character that is
no space, no `,` and no `}`. -/
theorem render_head {v : Value} (hwf : v.wellFormed = true) (hnc : v.noComma = true) :
    ∃ c r, render v = c :: r ∧ isSpace c = false ∧ c ≠ ',' ∧ c ≠ '\x7d' := by
  cases v with
  | object ms => exact ⟨_, _, rfl, rfl, by decide, by decide⟩
  | _ =>
    obtain ⟨c, r, h, hs, hc, hb, -⟩ :=
      render_plainScalar (Value.plainScalar_of_noComma (by rfl) hnc) hwf
    exact ⟨c, r, h, hs, hc, hb⟩

theorem stops_renderCont (c : List Cont) : Stops (renderCont c) := by
  rcases c with _ | ⟨_ | _, _⟩ <;> simp [Stops, renderCont]

/-- A member that may follow a value starts, after its `,`, a member `ParseObject` reads whole. -/
theorem goodMember_memberText {k : List Char} {v : Value} {c : List Cont} {j : JSON}
    (hg : (Cont.member k v).good = true) (hp : JSON.parse (render v ++ renderCont c) = .ok j) :
    GoodMember (memberText k v c) k j := by
  obtain ⟨hq, hk, hwf, hnc, -⟩ := Cont.good_member hg
  obtain ⟨c0, r, hr, hs, hc, hb⟩ := render_head hwf hnc
  refine ⟨c0 :: (r ++ renderCont c), ?_, List.cons_ne_nil _ _, ?_, by simpa using hb, ?_, ?_⟩
  · rw [memberText, hr, List.cons_append]
    exact memberHead_member hq hs
  · simp [afterValue, skipWhitespace_cons c0 hs, hc]
  · rw [commaSuffixes_memberText hk, hr]
    rfl
  · rw [← List.cons_append, ← hr, hp]

/-- What `Parse` makes of the rendering of `v` followed by `c` (`parse_render_cont`): a scalar's
own value; for an object, its first member, then, inserted in order, one member for every `,` that
follows the first member's value, each read from the text after its `,`. -/
def parsed : Value → List Cont → JSON
  | .object ((k, w) :: ms), c =>
    .object (((visits w (Cont.ofMembers ms ++ .close :: c)).attach.map fun m =>
      (m.1.1, parsed m.1.2.1 m.1.2.2)).foldl (fun o m => insertMember m.1 m.2 o)
        [(k, parsed w (Cont.ofMembers ms ++ .close :: c))])
  | v, _ => scalarJSON v
termination_by v c => v.weight + contWeight c
decreasing_by
  all_goals simp_wf
  · simp only [contWeight_append, contWeight_ofMembers, contWeight, Value.weight, membersWeight]
    omega
  · rename_i m
    have := visits_weight _ _ _ m.2
    simp only [contWeight_append, contWeight_ofMembers, contWeight, Value.weight,
      membersWeight] at this ⊢
    omega

theorem parsed_object_cons (k : List Char) (w : Value) (ms : List (List Char × Value))
    (c : List Cont) :
    parsed (.object ((k, w) :: ms)) c =
      .object (((visits w (Cont.ofMembers ms ++ .close :: c)).map fun m =>
        (m.1, parsed m.2.1 m.2.2)).foldl (fun o m => insertMember m.1 m.2 o)
          [(k, parsed w (Cont.ofMembers ms ++ .close :: c))]) := by
  rw [parsed]
  exact congrArg (fun l => JSON.object (List.foldl _ _ l))
    (List.attach_map_val _ fun m : List Char × Value × List Cont => (m.1, parsed m.2.1 m.2.2))

theorem parsed_of_ne {v : Value} (hv : ∀ k w ms, v = .object ((k, w) :: ms) → False)
    (c : List Cont) : parsed v c = scalarJSON v := by
  rw [parsed]
  exact hv

theorem parsed_of_isScalar {v : Value} (h : v.isScalar = true) (c : List Cont) :
    parsed v c = scalarJSON v :=
  parsed_of_ne (fun _ _ _ hv => by subst hv; cases h) c

theorem skipWhitespace_memberText (k : List Char) (v : Value) (c : List Cont) :
    skipWhitespace (memberText k v c) = memberText k v c :=
  skipWhitespace_cons '"' rfl _

/-- `Parse` of a well-formed value with no `,` inside a token and no integer above `2^53`, followed
by what may follow it: it never fails, and gives `parsed`. -/
theorem parse_render_cont (v : Value) (c : List Cont) (hwf : v.wellFormed = true)
    (hnc : v.noComma = true) (hx : v.exactInts = true) (hc : ∀ x ∈ c, x.good = true) :
    JSON.parse (render v ++ renderCont c) = .ok (parsed v c) := by
  match v, hwf, hnc, hx with
  | .object [], _, _, _ =>
    rw [parsed_of_ne (by simp) c]
    show parseFuel ((renderCont c).length + 2 + 1) ('\x7b' :: '\x7d' :: renderCont c) = _
    rw [parseFuel_object, skipWhitespace_cons '\x7d' rfl, objectLoop, if_pos (by rfl)]
    rfl
  | .object ((k, w) :: ms), hwf, hnc, hx =>
    obtain ⟨hg, hc'⟩ := Cont.good_object_cons hwf hnc hx hc
    obtain ⟨-, hk, hwf', hnc', hx'⟩ := Cont.good_member hg
    rw [parsed_object_cons, JSON.parse, render_object_cons, List.length_cons, parseFuel_object,
      skipWhitespace_memberText]
    refine objectLoop_true (goodMember_memberText hg (parse_render_cont w _ hwf' hnc' hx' hc'))
      (by simp [memberText]) ?_ (Nat.lt_succ_self _)
    rw [commaSuffixes_memberText hk, commaSuffixes_render w _ hwf' hnc' hx' hc',
      List.forall₂_map_left_iff, List.forall₂_map_right_iff]
    refine List.forall₂_same.2 fun m hm => ?_
    obtain ⟨hgm, hcm⟩ := visits_good w _ hwf' hnc' hx' hc' m hm
    obtain ⟨-, -, hwfm, hncm, hxm⟩ := Cont.good_member hgm
    exact goodMember_memberText hgm (parse_render_cont m.2.1 m.2.2 hwfm hncm hxm hcm)
  | .string _, hwf, _, hx | .int _ _, hwf, _, hx | .bool _, hwf, _, hx | .null, hwf, _, hx =>
    rw [parsed_of_ne (by simp) c, JSON.parse]
    exact parseFuel_render_scalar (by rfl) hwf hx _ (stops_renderCont c)
termination_by v.weight + contWeight c
decreasing_by
  all_goals simp_wf
  all_goals simp only [contWeight_append, contWeight_ofMembers, contWeight, Value.weight,
    membersWeight]
  · omega
  · have := visits_weight _ _ _ ‹_ ∈ visits _ _›
    simp only [contWeight_append, contWeight_ofMembers, contWeight] at this
    omega

end SsLogger.Parser

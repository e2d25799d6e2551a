import ApiSchema.Proofs.Tree.Reading

/-! The parser takes whatever is derived, as far as what comes behind it does not belong to it. -/

namespace ApiSchema.Parser

open Grammar

variable {α : Type} {marks : Nat → Prop} {tokens rest ts : List Token} {notes : List Note}
  {warnings : List String} {m m' : Mark}

section Behind

theorem lacks_cons {token : Token} (other : token.lexeme ≠ .mark m) : Lacks (token :: rest) m := by
  intro t same
  cases same
  exact other

theorem lacks_mark {token : Token} (written : token.lexeme = .mark m) (other : m ≠ m') :
    Lacks (token :: rest) m' :=
  lacks_cons fun same => other (Lexeme.mark.inj (written.symm.trans same))

theorem lacks_maybe {written : List Token} (maybe : Maybe m written) (other : m ≠ m')
    (lacks : Lacks tokens m') : Lacks (written ++ tokens) m' := by
  cases maybe with
  | absent => exact lacks
  | present written => exact lacks_mark written other

theorem unannotated_mark {token : Token} (written : token.lexeme = .mark m) :
    Unannotated (token :: rest) := by
  intro t same text note
  cases same
  cases written.symm.trans note

theorem lacks_of_derived {phrase : Phrase} (derived : Derives marks phrase ts)
    (present : phrase ≠ .arguments []) (other : ¬ phrase.opens (.mark m)) : Lacks (ts ++ rest) m := by
  rcases derived.head with empty | ⟨t, more, rfl, opens⟩
  · exact absurd empty present
  · exact lacks_cons fun same => other (same ▸ opens)

theorem unannotated_of_derived {phrase : Phrase} (derived : Derives marks phrase ts)
    (present : phrase ≠ .arguments []) (other : ∀ text, ¬ phrase.opens (.note text)) :
    Unannotated (ts ++ rest) := by
  rcases derived.head with empty | ⟨t, more, rfl, opens⟩
  · exact absurd empty present
  · intro token same text note
    cases same
    exact other text (note ▸ opens)

/-- Nothing comes that would belong to a type or a field. -/
structure Stops (tokens : List Token) : Prop where
  array : Lacks tokens .array
  question : Lacks tokens .question
  exclamation : Lacks tokens .exclamation

theorem Stops.of_mark {token : Token} (written : token.lexeme = .mark m)
    (other : m ∉ [Mark.array, .question, .exclamation]) : Stops (token :: rest) :=
  ⟨lacks_mark written fun same => other (by simp [same]),
    lacks_mark written fun same => other (by simp [same]),
    lacks_mark written fun same => other (by simp [same])⟩

theorem Stops.maybe {written : List Token} (stops : Stops tokens) (maybe : Maybe .comma written) :
    Stops (written ++ tokens) :=
  ⟨lacks_maybe maybe (by decide) stops.array, lacks_maybe maybe (by decide) stops.question,
    lacks_maybe maybe (by decide) stops.exclamation⟩

theorem field_behind {f : FieldTree} (derived : Derives marks (.field f) ts) :
    Unannotated (ts ++ rest) ∧ ∀ m, Lacks (ts ++ rest) m :=
  ⟨unannotated_of_derived derived nofun nofun, fun _ => lacks_of_derived derived nofun nofun⟩

theorem members_behind {ms : List MemberTree} (derived : Derives marks (.members ms) ts) :
    Stops (ts ++ rest) ∧ Lacks (ts ++ rest) .comma := by
  have other : ∀ m, m ≠ .rightBrace → m ≠ .spread → Lacks (ts ++ rest) m := fun m brace spread =>
    lacks_of_derived derived nofun (by simp [Phrase.opens, Lexeme.name?, brace, spread])
  exact ⟨⟨other _ (by decide) (by decide), other _ (by decide) (by decide),
    other _ (by decide) (by decide)⟩, other _ (by decide) (by decide)⟩

theorem values_behind {vs : List ValueTree} (derived : Derives marks (.values vs) ts) :
    Lacks (ts ++ rest) .comma ∧ Lacks (ts ++ rest) .leftBrace := by
  have other : ∀ m, m ≠ .rightBrace → Lacks (ts ++ rest) m := fun m brace =>
    lacks_of_derived derived nofun (by simp [Phrase.opens, Lexeme.name?, brace])
  exact ⟨other _ (by decide), other _ (by decide)⟩

end Behind

theorem takes_spread {member : MemberTree} (spreads : Spreads member ts) :
    Takes parseSpread ⟨ts ++ rest, [], warnings⟩ member ⟨rest, [], warnings⟩ := by
  cases spreads with
  | named written named capital =>
    exact takes_no_annotations.bind ((takes_mark written).bind
      ((takes_name named).bind ((takes_type_name capital).bind .pure)))

section Suffixes

variable {t : TypeTree} {fuel : Nat} {a : TypeTree} {v : View}

theorem takes_no_suffix (array : Lacks rest .array) (question : Lacks rest .question) :
    Takes (parseSuffixes fuel t) ⟨rest, [], warnings⟩ t ⟨rest, [], warnings⟩ := by
  cases fuel with
  | zero => exact .pure
  | succ fuel =>
    apply Takes.get
    intro _ _
    split
    · next now => exact absurd rfl (array _ now)
    · next now => exact absurd rfl (question _ now)
    · exact .pure

theorem takes_array {suffix : Token} (written : suffix.lexeme = .mark .array)
    (further : Takes (parseSuffixes fuel (.array t suffix.location)) ⟨rest, [], warnings⟩ a v) :
    Takes (parseSuffixes (fuel + 1) t) ⟨suffix :: rest, [], warnings⟩ a v := by
  obtain ⟨lexeme, location⟩ := suffix
  cases written
  exact .get fun _ _ => takes_advance.bind further

theorem takes_optional {suffix : Token} (written : suffix.lexeme = .mark .question)
    (further : Takes (parseSuffixes fuel (.optional t suffix.location)) ⟨rest, [], warnings⟩ a v) :
    Takes (parseSuffixes (fuel + 1) t) ⟨suffix :: rest, [], warnings⟩ a v := by
  obtain ⟨lexeme, location⟩ := suffix
  cases written
  exact .get fun _ _ => takes_advance.bind further

end Suffixes

theorem takes_field_marks {n : Nat} (marked : Marks n ts) (ended : Lacks rest .exclamation) :
    ∀ {fuel secret}, ts.length ≤ fuel →
      Takes (parseFieldMarks fuel secret) ⟨ts ++ rest, [], warnings⟩ (secret || decide (0 < n))
        ⟨rest, [], warnings⟩ := by
  induction marked with
  | none =>
    intro fuel secret _
    have same : (secret || decide (0 < 0)) = secret := by simp
    rw [same]
    cases fuel with
    | zero => exact .pure
    | succ fuel => exact (takes_not_accepted ended).bind .pure
  | @secret mark word others n written named _ ih =>
    intro fuel secret enough
    cases fuel with
    | zero => exact absurd enough (Nat.not_succ_le_zero _)
    | succ fuel =>
      simp only [List.length_cons] at enough
      have later := @ih fuel true (by omega)
      have same : (secret || decide (0 < n + 1)) = (true || decide (0 < n)) := by simp
      rw [same]
      apply (takes_accepted written).bind
      apply (takes_name named).bind
      dsimp only
      rw [if_pos rfl]
      exact later

/-- The parser takes the phrase, with fuel enough for its tokens. That of a type goes on with the
suffixes behind it. -/
def Accepts : Phrase → List Token → Prop
  | .type t, ts => ∀ fuel, 2 * ts.length + 1 ≤ fuel → ∃ left, fuel ≤ left + ts.length ∧
    ∀ rest warnings a v, Takes (parseSuffixes left t) ⟨rest, [], warnings⟩ a v →
      Takes (parseType fuel) ⟨ts ++ rest, [], warnings⟩ a v
  | .struct t, ts => ∀ fuel rest warnings, 2 * ts.length ≤ fuel →
    Takes (parseStruct fuel) ⟨ts ++ rest, [], warnings⟩ t ⟨rest, [], warnings⟩
  | .members ms, ts => ∀ fuel seen rest warnings, 2 * ts.length + 1 ≤ fuel → Fresh seen ms →
    Takes (parseMembers fuel seen) ⟨ts ++ rest, [], warnings⟩ ms ⟨rest, [], warnings⟩
  | .field f, ts => ∀ fuel rest warnings, 2 * ts.length ≤ fuel → Stops rest →
    Takes (parseField fuel) ⟨ts ++ rest, f.notes, warnings⟩ f ⟨rest, [], warnings⟩
  | .values vs, ts => ∀ fuel rest warnings, 2 * ts.length + 1 ≤ fuel →
    Takes (parseValues fuel) ⟨ts ++ rest, [], warnings⟩ vs ⟨rest, [], warnings⟩
  | .argument m, ts => ∀ fuel seen rest warnings, 2 * ts.length ≤ fuel → Fresh seen [m] → Stops rest →
    (Lacks rest .comma → Takes (parseArguments (fuel + 1) seen) ⟨ts ++ rest, [], warnings⟩ [m]
      ⟨rest, [], warnings⟩) ∧
    ∀ comma behind ms v, comma.lexeme = .mark .comma → rest = comma :: behind →
      Takes (parseArguments fuel (MemberTree.fieldNames [m] ++ seen)) ⟨behind, [], warnings⟩ ms v →
        Takes (parseArguments (fuel + 1) seen) ⟨ts ++ rest, [], warnings⟩ (m :: ms) v
  | .arguments ms, ts => ∀ fuel seen right rest warnings, 2 * ts.length + 1 ≤ fuel → Fresh seen ms →
    right.lexeme = .mark .rightParen →
      Takes (parseArguments fuel seen) ⟨ts ++ right :: rest, [], warnings⟩ ms
        ⟨right :: rest, [], warnings⟩

theorem Accepts.type {t : TypeTree} (accepts : Accepts (.type t) ts) {fuel : Nat}
    (enough : 2 * ts.length + 1 ≤ fuel) (array : Lacks rest .array) (question : Lacks rest .question) :
    Takes (parseType fuel) ⟨ts ++ rest, [], warnings⟩ t ⟨rest, [], warnings⟩ := by
  obtain ⟨left, _, takes⟩ := accepts fuel enough
  exact takes _ _ _ _ (takes_no_suffix array question)

section Types

variable {fuel left : Nat} {base : TypeTree}

theorem accepts_primitive {token : Token} {kind : Primitive} (written : token.lexeme = .primitive kind) :
    Accepts (.type (.primitive kind token.location)) [token] := by
  intro fuel enough
  obtain ⟨fuel, rfl⟩ := Nat.exists_eq_add_of_le' enough
  obtain ⟨lexeme, location⟩ := token
  cases written
  refine ⟨fuel + 2, by simp, fun rest warnings a v further => ?_⟩
  exact takes_no_annotations.bind (takes_current.bind (takes_advance.bind (Takes.pure.bind further)))

theorem accepts_reference {token : Token} {name : String} (written : token.lexeme = .identifier name)
    (capital : startsWithCapital name = true) :
    Accepts (.type (.reference name token.location)) [token] := by
  intro fuel enough
  obtain ⟨fuel, rfl⟩ := Nat.exists_eq_add_of_le' enough
  obtain ⟨lexeme, location⟩ := token
  cases written
  refine ⟨fuel + 2, by simp, fun rest warnings a v further => ?_⟩
  exact takes_no_annotations.bind (takes_current.bind (takes_advance.bind
    ((takes_type_name capital).bind (Takes.pure.bind further))))

theorem accepts_literal {t : TypeTree} (derived : Derives marks (.struct t) ts)
    (struct : Accepts (.struct t) ts) : Accepts (.type t) ts := by
  intro fuel enough
  rcases derived.head with ⟨⟨⟩⟩ | ⟨⟨lexeme, location⟩, others, rfl, opens⟩
  cases opens
  obtain ⟨fuel, rfl⟩ := Nat.exists_eq_add_of_le' (Nat.le_of_add_left_le enough)
  simp only [List.length_cons] at enough
  refine ⟨fuel, by simp, fun rest warnings a v further => ?_⟩
  exact takes_no_annotations.bind (takes_current.bind
    ((struct fuel rest warnings (by simp only [List.length_cons]; omega)).bind further))

theorem accepts_enum {word brace : Token} {vs : List ValueTree} (keyword : word.lexeme = .keyword .enum)
    (opens : brace.lexeme = .mark .leftBrace) (values : Accepts (.values vs) ts) :
    Accepts (.type (.enum "" vs word.location)) (word :: brace :: ts) := by
  intro fuel enough
  obtain ⟨fuel, rfl⟩ := Nat.exists_eq_add_of_le' (Nat.le_of_add_left_le enough)
  simp only [List.length_cons] at enough
  obtain ⟨lexeme, location⟩ := word
  cases keyword
  refine ⟨fuel, by simp only [List.length_cons]; omega, fun rest warnings a v further => ?_⟩
  exact takes_no_annotations.bind (takes_current.bind (takes_advance.bind ((takes_mark opens).bind
    ((values fuel rest warnings (by omega)).bind (Takes.pure.bind further)))))

theorem accepts_parens {left right : Token} {t : TypeTree} (opens : left.lexeme = .mark .leftParen)
    (inner : Accepts (.type t) ts) (closes : right.lexeme = .mark .rightParen) :
    Accepts (.type t) (left :: (ts ++ [right])) := by
  intro fuel enough
  obtain ⟨fuel, rfl⟩ := Nat.exists_eq_add_of_le' (Nat.le_of_add_left_le enough)
  simp only [List.length_cons, List.length_append] at enough
  obtain ⟨lexeme, location⟩ := left
  cases opens
  refine ⟨fuel, by simp only [List.length_cons]; omega, fun rest warnings a v further => ?_⟩
  have shape : ts ++ [right] ++ rest = ts ++ right :: rest := by simp
  rw [List.cons_append, shape]
  exact takes_no_annotations.bind (takes_current.bind (takes_advance.bind
    ((inner.type (by omega) (lacks_mark closes (by decide)) (lacks_mark closes (by decide))).bind
      ((takes_mark closes).bind (Takes.pure.bind further)))))

theorem accepts_suffix {suffix : Token} {t t' : TypeTree} (inner : Accepts (.type t) ts)
    (step : ∀ {fuel rest warnings a v}, Takes (parseSuffixes fuel t') ⟨rest, [], warnings⟩ a v →
      Takes (parseSuffixes (fuel + 1) t) ⟨suffix :: rest, [], warnings⟩ a v) :
    Accepts (.type t') (ts ++ [suffix]) := by
  intro fuel enough
  simp only [List.length_append, List.length_singleton] at enough ⊢
  obtain ⟨left, remains, takes⟩ := inner fuel (by omega)
  obtain ⟨left, rfl⟩ : ∃ n, left = n + 1 := ⟨left - 1, by omega⟩
  refine ⟨left, by omega, fun rest warnings a v further => ?_⟩
  have shape : ts ++ [suffix] ++ rest = ts ++ suffix :: rest := by simp
  rw [shape]
  exact takes _ _ _ _ (step further)

end Types

section Members

theorem accepts_struct {brace : Token} {ms : List MemberTree} (opens : brace.lexeme = .mark .leftBrace)
    (members : Accepts (.members ms) ts) (distinct : (MemberTree.fieldNames ms).Nodup) :
    Accepts (.struct (.struct "" ms [] brace.location)) (brace :: ts) := by
  intro fuel rest warnings enough
  simp only [List.length_cons] at enough
  obtain ⟨fuel, rfl⟩ : ∃ n, fuel = n + 1 := ⟨fuel - 1, by omega⟩
  have inside := members fuel [] rest warnings (by omega) ⟨distinct, nofun⟩
  exact (takes_mark opens).bind (inside.bind .pure)

theorem accepts_closed {brace : Token} (closes : brace.lexeme = .mark .rightBrace) :
    Accepts (.members []) [brace] := by
  intro fuel seen rest warnings enough _
  obtain ⟨fuel, rfl⟩ := Nat.exists_eq_add_of_le' enough
  exact (takes_collected .nil (unannotated_mark closes)).bind ((takes_seen closes).bind
    (takes_no_annotations.bind (takes_advance.bind .pure)))

theorem accepts_spread {member : MemberTree} {ms : List MemberTree} {written sep : List Token}
    (spread : Spreads member written) (separated : Maybe .comma sep)
    (derived : Derives marks (.members ms) ts) (others : Accepts (.members ms) ts) :
    Accepts (.members (member :: ms)) (written ++ (sep ++ ts)) := by
  intro fuel seen rest warnings enough fresh
  simp only [List.length_append] at enough
  obtain ⟨fuel, rfl⟩ : ∃ n, fuel = n + 1 := ⟨fuel - 1, by omega⟩
  obtain ⟨dots, others', rfl, opens⟩ := spread.head
  simp only [List.length_cons] at enough
  have shape : dots :: others' ++ (sep ++ ts) ++ rest = dots :: others' ++ (sep ++ (ts ++ rest)) := by simp
  rw [shape]
  obtain ⟨_, comma⟩ := takes_maybe separated (@members_behind _ rest _ _ derived).2
  have later := others fuel seen rest warnings (by omega) (by
    cases spread
    exact fresh)
  apply (takes_collected .nil (unannotated_mark opens)).bind
  apply (takes_unseen (lacks_mark opens (by decide))).bind
  exact (takes_seen opens).bind ((takes_spread spread).bind ((comma _ _).bind (later.bind .pure)))

theorem accepts_member {f : FieldTree} {ms : List MemberTree} {noted written sep : List Token}
    (annotated : Grammar.Notes noted f.notes) (first : Derives marks (.field f) written)
    (field : Accepts (.field f) written) (separated : Maybe .comma sep)
    (derived : Derives marks (.members ms) ts) (others : Accepts (.members ms) ts) :
    Accepts (.members (.field f :: ms)) (noted ++ (written ++ (sep ++ ts))) := by
  intro fuel seen rest warnings enough fresh
  simp only [List.length_append] at enough
  obtain ⟨fuel, rfl⟩ : ∃ n, fuel = n + 1 := ⟨fuel - 1, by omega⟩
  have present : 0 < written.length := by
    rcases first.head with ⟨⟨⟩⟩ | ⟨_, _, rfl, _⟩
    simp
  have shape : noted ++ (written ++ (sep ++ ts)) ++ rest = noted ++ (written ++ (sep ++ (ts ++ rest))) := by
    simp
  rw [shape]
  have new : f.name ∉ seen := fun known => fresh.2 _ known (List.mem_cons_self ..)
  have later := others fuel (f.name :: seen) rest warnings (by omega) (fresh_cons_iff.mp fresh).2
  obtain ⟨stops, commaless⟩ := @members_behind _ rest _ _ derived
  obtain ⟨_, comma⟩ := takes_maybe separated commaless
  obtain ⟨unannotated, unmarked⟩ := @field_behind _ (sep ++ (ts ++ rest)) _ _ first
  apply (takes_collected annotated unannotated).bind
  apply (takes_unseen (unmarked .rightBrace)).bind
  apply (takes_unseen (unmarked .spread)).bind
  apply (field fuel _ warnings (by omega) (stops.maybe separated)).bind
  dsimp only
  rw [if_neg (by simpa using new)]
  exact (comma _ _).bind (later.bind .pure)

theorem accepts_field {word colon : Token} {name : String} {t : TypeTree} {n : Nat} {marked : List Token}
    {notes : List Note} (named : word.lexeme.name? = some name) (separated : colon.lexeme = .mark .colon)
    (type : Accepts (.type t) ts) (secret : Marks n marked) :
    Accepts (.field (.mk name t (decide (0 < n)) notes word.location))
      (word :: colon :: (ts ++ marked)) := by
  intro fuel rest warnings enough stops
  simp only [List.length_cons, List.length_append] at enough
  obtain ⟨fuel, rfl⟩ : ∃ n, fuel = n + 1 := ⟨fuel - 1, by omega⟩
  have shape : word :: colon :: (ts ++ marked) ++ rest = word :: colon :: (ts ++ (marked ++ rest)) := by simp
  rw [shape]
  have behind : Lacks (marked ++ rest) .array ∧ Lacks (marked ++ rest) .question := by
    cases secret with
    | none => exact ⟨stops.array, stops.question⟩
    | secret written => exact ⟨lacks_mark written (by decide), lacks_mark written (by decide)⟩
  have ends := @takes_field_marks _ _ warnings _ secret stops.exclamation fuel false (by omega)
  rw [Bool.false_or] at ends
  exact (takes_name named).bind ((takes_mark separated).bind (takes_annotations.bind
    ((type.type (by omega) behind.1 behind.2).bind (ends.bind .pure))))

end Members

section Values

variable {word : Token} {text : String} {vs : List ValueTree} {noted sep : List Token}

theorem accepts_complete {brace : Token} (closes : brace.lexeme = .mark .rightBrace) :
    Accepts (.values []) [brace] := by
  intro fuel rest warnings enough
  obtain ⟨fuel, rfl⟩ := Nat.exists_eq_add_of_le' enough
  exact (takes_collected .nil (unannotated_mark closes)).bind ((takes_seen closes).bind
    (takes_no_annotations.bind (takes_advance.bind .pure)))

theorem labels_behind (labels : Labels word text) :
    Unannotated (word :: rest) ∧ ∀ m, Lacks (word :: rest) m := by
  constructor
  · intro t same other note
    cases same
    rcases labels with string | named
    · cases string.symm.trans note
    · rw [note] at named
      cases named
  · intro m
    refine lacks_cons fun mark => ?_
    rcases labels with string | named
    · cases string.symm.trans mark
    · rw [mark] at named
      cases named

theorem takes_label {next : String × Location → Parser α} {a : α} {v : View}
    (labels : Labels word text)
    (further : Takes (next (text, word.location)) ⟨rest, notes, warnings⟩ a v) :
    Takes (do
      match (← get).current with
      | some ⟨.string text, location⟩ => do
        let _ ← advance
        let written ← pure (text, location)
        next written
      | _ => do
        let written ← expectName
        next written) ⟨word :: rest, notes, warnings⟩ a v := by
  obtain ⟨lexeme, location⟩ := word
  apply Takes.get
  intro _ _
  rcases labels with string | named
  · cases string
    exact takes_advance.bind (Takes.pure.bind further)
  · cases lexeme <;> first | cases named; done | exact (takes_name named).bind further

theorem accepts_tag {notes : List Note} (annotated : Grammar.Notes noted notes)
    (labels : Labels word text) (separated : Maybe .comma sep)
    (derived : Derives marks (.values vs) ts) (others : Accepts (.values vs) ts) :
    Accepts (.values (.mk text none notes word.location :: vs)) (noted ++ word :: (sep ++ ts)) := by
  intro fuel rest warnings enough
  simp only [List.length_append, List.length_cons] at enough
  obtain ⟨fuel, rfl⟩ : ∃ n, fuel = n + 1 := ⟨fuel - 1, by omega⟩
  have shape : noted ++ word :: (sep ++ ts) ++ rest = noted ++ word :: (sep ++ (ts ++ rest)) := by simp
  rw [shape]
  obtain ⟨commaless, braceless⟩ := @values_behind _ rest _ _ derived
  obtain ⟨_, comma⟩ := takes_maybe separated commaless
  obtain ⟨unannotated, unmarked⟩ := @labels_behind (sep ++ (ts ++ rest)) _ _ labels
  have dataless : Lacks (sep ++ (ts ++ rest)) .leftBrace := lacks_maybe separated (by decide) braceless
  apply (takes_collected annotated unannotated).bind
  apply (takes_unseen (unmarked .rightBrace)).bind
  apply takes_label labels
  apply takes_annotations.bind
  apply (takes_unseen dataless).bind
  exact Takes.pure.bind ((comma _ _).bind ((others fuel rest warnings (by omega)).bind .pure))

theorem accepts_tagged {notes : List Note} {t : TypeTree} {written : List Token}
    (annotated : Grammar.Notes noted notes) (labels : Labels word text)
    (struct : Derives marks (.struct t) written) (data : Accepts (.struct t) written)
    (separated : Maybe .comma sep) (derived : Derives marks (.values vs) ts)
    (others : Accepts (.values vs) ts) :
    Accepts (.values (.mk text (some t) notes word.location :: vs))
      (noted ++ word :: (written ++ (sep ++ ts))) := by
  intro fuel rest warnings enough
  simp only [List.length_append, List.length_cons] at enough
  obtain ⟨fuel, rfl⟩ : ∃ n, fuel = n + 1 := ⟨fuel - 1, by omega⟩
  have shape : noted ++ word :: (written ++ (sep ++ ts)) ++ rest =
      noted ++ word :: (written ++ (sep ++ (ts ++ rest))) := by simp
  rw [shape]
  obtain ⟨_, comma⟩ := takes_maybe separated (@values_behind _ rest _ _ derived).1
  obtain ⟨unannotated, unmarked⟩ := @labels_behind (written ++ (sep ++ (ts ++ rest))) _ _ labels
  have inside := data fuel (sep ++ (ts ++ rest)) warnings (by omega)
  have present : Takes (some <$> parseStruct fuel) ⟨written ++ (sep ++ (ts ++ rest)), [], warnings⟩ (some t)
      ⟨sep ++ (ts ++ rest), [], warnings⟩ := inside.map some
  apply (takes_collected annotated unannotated).bind
  apply (takes_unseen (unmarked .rightBrace)).bind
  apply takes_label labels
  apply takes_annotations.bind
  rcases struct.head with ⟨⟨⟩⟩ | ⟨brace, more, rfl, opens⟩
  apply (takes_seen opens).bind
  exact present.bind ((comma _ _).bind ((others fuel rest warnings (by omega)).bind .pure))

end Values

section Arguments

variable {f : FieldTree} {member : MemberTree} {ms : List MemberTree}

theorem accepts_inherited (spread : Spreads member ts) : Accepts (.argument member) ts := by
  intro fuel seen rest warnings _ _ _
  obtain ⟨dots, others, rfl, opens⟩ := spread.head
  have unclosed : Takes (seesMark .rightParen) ⟨dots :: others ++ rest, [], warnings⟩ false _ :=
    takes_unseen (lacks_mark opens (by decide))
  have seen' : Takes (seesMark .spread) ⟨dots :: others ++ rest, [], warnings⟩ true _ :=
    takes_seen opens
  constructor
  · intro commaless
    exact unclosed.bind (seen'.bind ((takes_spread spread).bind
      ((takes_not_accepted commaless).bind .pure)))
  · rintro comma behind ms v written rfl further
    have known : MemberTree.fieldNames [member] ++ seen = seen := by
      cases spread
      rfl
    rw [known] at further
    exact unclosed.bind (seen'.bind ((takes_spread spread).bind
      ((takes_accepted written).bind (further.bind .pure))))

theorem accepts_own (derived : Derives marks (.field f) ts) (field : Accepts (.field f) ts)
    (bare : f.notes = []) : Accepts (.argument (.field f)) ts := by
  intro fuel seen rest warnings enough fresh stops
  obtain ⟨_, unmarked⟩ := @field_behind _ rest _ _ derived
  have new : f.name ∉ seen := fun known => fresh.2 _ known (List.mem_cons_self ..)
  have first := field fuel rest warnings enough stops
  rw [bare] at first
  constructor
  · intro commaless
    apply (takes_unseen (unmarked .rightParen)).bind
    apply (takes_unseen (unmarked .spread)).bind
    apply first.bind
    dsimp only
    rw [if_neg (by simpa using new)]
    exact (takes_not_accepted commaless).bind .pure
  · rintro comma behind ms v written rfl further
    apply (takes_unseen (unmarked .rightParen)).bind
    apply (takes_unseen (unmarked .spread)).bind
    apply first.bind
    dsimp only
    rw [if_neg (by simpa using new)]
    exact (takes_accepted written).bind (further.bind .pure)

theorem accepts_none : Accepts (.arguments []) [] := by
  intro fuel seen right rest warnings enough _ closes
  obtain ⟨fuel, rfl⟩ := Nat.exists_eq_add_of_le' enough
  exact (takes_seen closes).bind .pure

theorem accepts_last (argument : Accepts (.argument member) ts) : Accepts (.arguments [member]) ts := by
  intro fuel seen right rest warnings enough fresh closes
  obtain ⟨fuel, rfl⟩ : ∃ n, fuel = n + 1 := ⟨fuel - 1, by omega⟩
  exact (argument fuel seen (right :: rest) warnings (by omega) fresh
    (.of_mark closes (by decide))).1 (lacks_mark closes (by decide))

theorem accepts_more {written : List Token} {comma : Token}
    (argument : Accepts (.argument member) written) (separated : comma.lexeme = .mark .comma)
    (others : Accepts (.arguments ms) ts) :
    Accepts (.arguments (member :: ms)) (written ++ comma :: ts) := by
  intro fuel seen right rest warnings enough fresh closes
  simp only [List.length_append, List.length_cons] at enough
  obtain ⟨fuel, rfl⟩ : ∃ n, fuel = n + 1 := ⟨fuel - 1, by omega⟩
  have shape : written ++ comma :: ts ++ right :: rest = written ++ comma :: (ts ++ right :: rest) := by simp
  obtain ⟨first, later⟩ := fresh_cons_iff.mp fresh
  rw [shape]
  exact (argument fuel seen _ warnings (by omega) first (.of_mark separated (by decide))).2
    comma _ ms _ separated rfl (others fuel _ right rest warnings (by omega) later closes)

end Arguments

theorem accepts_of_derives {phrase : Phrase} (derived : Derives marks phrase ts) :
    Accepts phrase ts := by
  induction derived with
  | primitive written => exact accepts_primitive written
  | reference written capital => exact accepts_reference written capital
  | literal struct ih => exact accepts_literal struct ih
  | enum keyword opens _ ih => exact accepts_enum keyword opens ih
  | parens opens _ closes ih => exact accepts_parens opens ih closes
  | optional _ written ih => exact accepts_suffix ih (takes_optional written)
  | array _ written ih => exact accepts_suffix ih (takes_array written)
  | struct opens _ distinct ih => exact accepts_struct opens ih distinct
  | closed closes => exact accepts_closed closes
  | spread spread separated others ih => exact accepts_spread spread separated others ih
  | member annotated field separated others first ih =>
    exact accepts_member annotated field first separated others ih
  | field named separated _ secret _ ih => exact accepts_field named separated ih secret
  | complete closes => exact accepts_complete closes
  | tag annotated labels separated others ih => exact accepts_tag annotated labels separated others ih
  | tagged annotated labels data separated others first ih =>
    exact accepts_tagged annotated labels data first separated others ih
  | inherited spread => exact accepts_inherited spread
  | own field bare ih => exact accepts_own field ih bare
  | none => exact accepts_none
  | last _ ih => exact accepts_last ih
  | more _ separated _ first ih => exact accepts_more first separated ih

theorem takes_type_here {t : TypeTree} (derived : Derives marks (.type t) ts)
    (array : Lacks rest .array) (question : Lacks rest .question) :
    Takes parseTypeHere ⟨ts ++ rest, [], warnings⟩ t ⟨rest, [], warnings⟩ := by
  have accepts : Accepts (.type t) ts := accepts_of_derives derived
  refine (takes_remaining_fuel _).bind (accepts.type ?_ array question)
  simp only [List.length_tail, List.length_append]
  omega

section Declarations

def openers : List Keyword := [.type, .error, .fn, .get, .function, .importing]

/-- What comes is another declaration, or its annotations, or an import directive, or nothing. -/
def Begins (tokens : List Token) : Prop :=
  ∀ t ∈ tokens.head?, (∃ text, t.lexeme = .note text) ∨ ∃ k ∈ openers, t.lexeme = .keyword k

theorem Begins.lacks (begins : Begins rest) (m : Mark) : Lacks rest m := by
  intro t first mark
  rcases begins t first with ⟨text, note⟩ | ⟨k, _, keyword⟩
  · cases note.symm.trans mark
  · cases keyword.symm.trans mark

theorem Begins.not_data (begins : Begins rest) :
    rest.head?.any (fun t => startsErrorData t.lexeme) = false := by
  rw [Option.any_eq_false_iff_get]
  intro present
  rcases begins _ (Option.get_mem present) with ⟨text, note⟩ | ⟨k, listed, keyword⟩
  · simp [note, startsErrorData]
  · have other : ∀ k ∈ openers, startsErrorData (.keyword k) = false := by decide
    rw [keyword, other k listed]

theorem begins_of_keyword {word : Token} {k : Keyword} {noted : List Token}
    (annotated : Grammar.Notes noted notes) (listed : k ∈ openers) (keyword : word.lexeme = .keyword k) :
    Begins (noted ++ word :: rest) := by
  intro t first
  cases annotated with
  | nil =>
    cases first
    exact .inr ⟨k, listed, keyword⟩
  | cons own =>
    cases first
    obtain ⟨text, _, note, _⟩ := own
    exact .inl ⟨text, note⟩

theorem begins_of_declares {d : Declaration} (declares : Declares marks d tokens) :
    Begins (tokens ++ rest) := by
  cases declares with
  | type annotated keyword =>
    rw [List.append_assoc]
    exact begins_of_keyword annotated (by decide) keyword
  | error annotated keyword =>
    rw [List.append_assoc]
    exact begins_of_keyword annotated (by decide) keyword
  | function annotated keyword =>
    obtain ⟨k, listed, keyword⟩ := keyword
    rw [List.append_assoc]
    have among : ∀ k ∈ [Keyword.fn, .get, .function], k ∈ openers := by decide
    exact begins_of_keyword annotated (among k listed) keyword

theorem begins_of_declarations {ds : List Declaration} (declared : Declarations marks ds tokens) :
    Begins tokens := by
  cases declared with
  | none => exact nofun
  | more first => exact begins_of_declares first

variable {word label : Token} {name : String} {t : TypeTree}

theorem takes_type_declaration {equals : List Token} (named : label.lexeme.name? = some name)
    (capital : startsWithCapital name = true) (defined : Maybe .equals equals)
    (type : Derives marks (.type t) ts) (begins : Begins rest) :
    Takes parseTypeDeclaration ⟨word :: label :: (equals ++ (ts ++ rest)), notes, warnings⟩
      ⟨name, t, notes, word.location⟩ ⟨rest, [], warnings⟩ := by
  obtain ⟨_, maybe⟩ := takes_maybe defined
    (@lacks_of_derived _ rest _ .equals _ type nofun (by simp [Phrase.opens, startsErrorData]))
  apply takes_advance.bind
  apply (takes_name named).bind
  dsimp only
  rw [if_pos capital]
  exact (maybe _ _).bind (takes_annotations.bind
    ((takes_type_here type (begins.lacks _) (begins.lacks _)).bind .pure))

theorem takes_error_declaration (named : label.lexeme.name? = some name)
    (capital : startsWithCapital name = true) (data : Payload marks label.location t ts)
    (begins : Begins rest) :
    Takes parseErrorDeclaration ⟨word :: label :: (ts ++ rest), notes, warnings⟩
      ⟨name, t, notes, word.location⟩ ⟨rest, [], warnings⟩ := by
  apply takes_advance.bind
  apply (takes_name named).bind
  dsimp only
  rw [if_pos capital]
  apply takes_annotations.bind
  cases data with
  | announced announced =>
    cases announced with
    | silent =>
      apply (takes_not_accepted (begins.lacks .colon)).bind
      apply Takes.get
      intro _ _
      have absent := begins.not_data
      simp only [Bool.false_eq_true, if_false]
      rw [if_neg (by simpa [View.state] using absent)]
      exact Takes.pure.bind .pure
    | colon written type =>
      apply (takes_accepted written).bind
      apply Takes.get
      intro _ _
      exact (takes_type_here type (begins.lacks _) (begins.lacks _)).bind .pure
  | bare type =>
    rcases type.head with ⟨⟨⟩⟩ | ⟨first, more, same, opens⟩
    have uncoloned : Lacks (ts ++ rest) .colon :=
      lacks_of_derived type (by simp) (by simp [Phrase.opens, startsErrorData])
    apply (takes_not_accepted uncoloned).bind
    apply Takes.get
    intro _ _
    have present : (ts ++ rest).head?.any (fun t => startsErrorData t.lexeme) = true := by
      rw [same]
      exact opens
    simp only [Bool.false_eq_true, if_false]
    rw [if_pos (by simpa [View.state] using present)]
    exact (takes_type_here type (begins.lacks _) (begins.lacks _)).bind .pure

theorem takes_function_declaration {left right : Token} {ms : List MemberTree}
    {args : List Token} (named : label.lexeme.name? = some name)
    (opens : left.lexeme = .mark .leftParen) (arguments : Derives marks (.arguments ms) args)
    (distinct : (MemberTree.fieldNames ms).Nodup) (closes : right.lexeme = .mark .rightParen)
    (targets : Targets notes ms) (returns : Announced marks right.location t ts)
    (begins : Begins rest) :
    Takes parseFunctionDeclaration
      ⟨word :: label :: left :: (args ++ right :: (ts ++ rest)), notes, warnings⟩
      { name, members := ms.map (described notes), returns := t
        notes := notes.filter (!isAboutArgument ·)
        isGetter := word.lexeme == .keyword .get
        location := word.location }
      ⟨rest, [], warnings ++ if word.lexeme = .keyword .fn then []
        else [deprecationWarning word.lexeme.text word.location]⟩ := by
  apply takes_annotations.bind
  apply takes_advance.bind
  dsimp -zeta only
  extract_lets continued
  have ends : ∀ warned, Takes (continued ()) ⟨label :: left :: (args ++ right :: (ts ++ rest)), [], warned⟩
      { name, members := ms.map (described notes), returns := t
        notes := notes.filter (!isAboutArgument ·)
        isGetter := word.lexeme == .keyword .get
        location := word.location }
      ⟨rest, [], warned⟩ := by
    intro warned
    have accepts : Accepts (.arguments ms) args := accepts_of_derives arguments
    have moved : Takes (distributeNotes notes ms) ⟨ts ++ rest, [], warned⟩
        (notes.filter (!isAboutArgument ·), ms.map (described notes)) ⟨ts ++ rest, [], warned⟩ := by
      rw [(distribute_notes_eq notes distinct).1 targets]
      exact .pure
    apply (takes_name named).bind
    apply (takes_mark opens).bind
    apply (takes_remaining_fuel _).bind
    refine (accepts _ [] right (ts ++ rest) warned ?_ ⟨distinct, nofun⟩ closes).bind ?_
    · simp only [List.length_tail, List.length_append, List.length_cons]
      omega
    apply (takes_mark closes).bind
    apply moved.bind
    cases returns with
    | silent => exact (takes_not_accepted (begins.lacks _)).bind (Takes.pure.bind .pure)
    | colon written type =>
      exact (takes_accepted written).bind
        ((takes_type_here type (begins.lacks _) (begins.lacks _)).bind .pure)
  by_cases outdated : word.lexeme = .keyword .fn
  · rw [if_neg (not_not.mpr outdated), if_pos outdated, List.append_nil]
    exact ends warnings
  · rw [if_pos outdated, if_neg outdated]
    exact (takes_warning _).bind (ends _)

theorem leads_declared {d : Declaration} {written : List Token} (first : Declares marks d written)
    (begins : Begins rest) {files : FileTree} {fuel : Nat} {schema tree : SchemaTree} {v : View}
    {imported imported' : List FilePath}
    (further : Leads (parseDeclarations files fuel (d.addTo schema))
      ⟨rest, [], warnings ++ d.warnings⟩ imported tree v imported') :
    Leads (parseDeclarations files (fuel + 1) schema) ⟨written ++ rest, [], warnings⟩ imported tree v
      imported' := by
  have opening : ∀ {noted notes word behind k}, Grammar.Notes noted notes →
      word.lexeme = .keyword k → Takes collectAnnotations ⟨noted ++ word :: behind, [], warnings⟩ ⟨⟩
        ⟨word :: behind, notes, warnings⟩ := by
    intro noted notes word behind k annotated keyword
    refine takes_collected annotated ?_
    intro t same text note
    cases same
    cases keyword.symm.trans note
  cases first with
  | @type noted notes word label name equals t ts annotated keyword named capital defined type =>
    obtain ⟨lexeme, location⟩ := word
    cases keyword
    have shape : noted ++ (⟨.keyword .type, location⟩ :: label :: (equals ++ ts)) ++ rest =
        noted ++ ⟨.keyword .type, location⟩ :: label :: (equals ++ (ts ++ rest)) := by simp
    rw [Declaration.warnings, List.append_nil] at further
    rw [shape]
    apply Leads.get
    intro _
    rw [if_neg (by simp [View.state])]
    apply (opening annotated rfl).leads
    apply Leads.get
    intro _
    exact (takes_type_declaration named capital defined type begins).leads further
  | @error noted notes word label name t ts annotated keyword named capital data =>
    obtain ⟨lexeme, location⟩ := word
    cases keyword
    have shape : noted ++ (⟨.keyword .error, location⟩ :: label :: ts) ++ rest =
        noted ++ ⟨.keyword .error, location⟩ :: label :: (ts ++ rest) := by simp
    rw [Declaration.warnings, List.append_nil] at further
    rw [shape]
    apply Leads.get
    intro _
    rw [if_neg (by simp [View.state])]
    apply (opening annotated rfl).leads
    apply Leads.get
    intro _
    exact (takes_error_declaration named capital data begins).leads further
  | @function noted notes word label name left ms args right t ts annotated keyword named opens
      arguments distinct closes targets returns =>
    obtain ⟨k, listed, keyword⟩ := keyword
    have shape : noted ++ (word :: label :: left :: (args ++ right :: ts)) ++ rest =
        noted ++ word :: label :: left :: (args ++ right :: (ts ++ rest)) := by simp
    have takes := @takes_function_declaration _ _ _ notes warnings word _ _ _ _ _ _ _ named opens
      arguments distinct closes targets returns begins
    rw [shape]
    apply Leads.get
    intro _
    rw [if_neg (by simp [View.state])]
    apply (opening annotated keyword).leads
    apply Leads.get
    intro _
    obtain ⟨lexeme, location⟩ := word
    cases keyword
    simp only [List.mem_cons, List.not_mem_nil, or_false] at listed
    rcases listed with rfl | rfl | rfl <;> exact takes.leads further

theorem takes_declared {d : Declaration} {written : List Token} (first : Declares marks d written)
    (begins : Begins rest) {files : FileTree} {fuel : Nat} {schema tree : SchemaTree} {v : View}
    (further : Takes (parseDeclarations files fuel (d.addTo schema)) ⟨rest, [], warnings ++ d.warnings⟩
      tree v) :
    Takes (parseDeclarations files (fuel + 1) schema) ⟨written ++ rest, [], warnings⟩ tree v :=
  fun last imported => leads_declared first begins (fun last => further last imported) last

theorem takes_declarations (files : FileTree) {ds : List Declaration}
    (declared : Declarations marks ds tokens) : ∀ {fuel schema warnings}, tokens.length < 2 * fuel →
      ∃ tree, Extends schema ds tree ∧ Takes (parseDeclarations files fuel schema)
        ⟨tokens, [], warnings⟩ tree ⟨[], [], warnings ++ (treeOf ds).warnings⟩ := by
  induction declared with
  | none =>
    intro fuel schema warnings enough
    obtain ⟨fuel, rfl⟩ : ∃ n, fuel = n + 1 := ⟨fuel - 1, by omega⟩
    have kept : warnings ++ (treeOf []).warnings = warnings := List.append_nil _
    rw [kept]
    exact ⟨schema, ⟨(List.append_nil _).symm, (List.append_nil _).symm, (List.append_nil _).symm⟩,
      .get fun _ _ => .pure⟩
  | @more d ds written ts first others ih =>
    intro fuel schema warnings enough
    obtain ⟨fuel, rfl⟩ : ∃ n, fuel = n + 1 := ⟨fuel - 1, by omega⟩
    have long : 2 ≤ written.length := by
      cases first <;> simp only [List.length_append, List.length_cons] <;> omega
    rw [List.length_append] at enough
    obtain ⟨tree, behind, takes⟩ := @ih fuel (d.addTo schema) (warnings ++ d.warnings) (by omega)
    refine ⟨tree, behind.cons, ?_⟩
    rw [warnings_cons, ← List.append_assoc]
    exact takes_declared first (begins_of_declarations others) takes

end Declarations

end ApiSchema.Parser

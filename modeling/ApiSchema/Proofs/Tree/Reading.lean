import ApiSchema.Proofs.Tree.Arguments
import ApiSchema.Proofs.Tree.Scanning

/-! What the parser returns is derived from the tokens that it has taken. -/

namespace ApiSchema.Parser

open Grammar

variable {tokens : List Token} {notes : List Note} {warnings : List String}

/-- The phrase is written by the first tokens, and the view is that behind them. -/
def Past (phrase : Phrase) (tokens : List Token) (warnings : List String) (v : View) : Prop :=
  ∃ written rest, tokens = written ++ rest ∧ Derives anyNumber phrase written ∧
    v = ⟨rest, [], warnings⟩

theorem gives_spread : Gives parseSpread ⟨tokens, notes, warnings⟩ fun m v =>
    notes = [] ∧ ∃ written rest, tokens = written ++ rest ∧ Spreads m written ∧
      v = ⟨rest, [], warnings⟩ := by
  apply gives_no_annotations.bind
  rintro _ _ ⟨rfl, rfl⟩
  apply gives_mark.bind
  rintro dots _ ⟨_, rfl, written, rfl⟩
  apply gives_name.bind
  rintro ⟨name, _⟩ _ ⟨word, rest, rfl, named, rfl, rfl⟩
  apply gives_type_name.bind
  rintro _ _ ⟨capital, rfl⟩
  exact .pure ⟨rfl, [dots, word], rest, rfl, .named written named capital, rfl⟩

theorem gives_suffixes (fuel : Nat) : ∀ {t written tokens},
    Derives anyNumber (.type t) written →
      Gives (parseSuffixes fuel t) ⟨tokens, [], warnings⟩ fun t' v =>
        ∃ more rest, tokens = more ++ rest ∧ Derives anyNumber (.type t') (written ++ more) ∧
          v = ⟨rest, [], warnings⟩ := by
  have done : ∀ {t written tokens}, Derives anyNumber (.type t) written →
      Gives (pure t) ⟨tokens, [], warnings⟩ fun t' v =>
        ∃ more rest, tokens = more ++ rest ∧ Derives anyNumber (.type t') (written ++ more) ∧
          v = ⟨rest, [], warnings⟩ := fun {t written tokens} derived =>
    .pure ⟨[], tokens, rfl, by rwa [List.append_nil], rfl⟩
  induction fuel with
  | zero => exact done
  | succ fuel ih =>
    intro t written tokens derived
    have further : ∀ {suffix rest t'}, Derives anyNumber (.type t') (written ++ [suffix]) →
        Gives (parseSuffixes fuel t') ⟨rest, [], warnings⟩ fun t' v =>
          ∃ more behind, suffix :: rest = more ++ behind ∧
            Derives anyNumber (.type t') (written ++ more) ∧ v = ⟨behind, [], warnings⟩ := by
      intro suffix rest t' derived
      refine (ih derived).mono ?_
      rintro _ _ ⟨more, behind, rfl, derived, rfl⟩
      rw [List.append_assoc] at derived
      exact ⟨suffix :: more, behind, rfl, derived, rfl⟩
    apply Gives.get
    intro last imported
    split
    · next location now =>
      obtain ⟨rest, rfl⟩ := List.head?_eq_some_iff.mp now
      exact .after takes_advance (further (@Derives.array _ _ _ ⟨.mark .array, location⟩ derived rfl))
    · next location now =>
      obtain ⟨rest, rfl⟩ := List.head?_eq_some_iff.mp now
      exact .after takes_advance (further (@Derives.optional _ _ _ ⟨.mark .question, location⟩ derived rfl))
    · exact done derived

theorem gives_field_marks (fuel : Nat) : ∀ {secret tokens},
    Gives (parseFieldMarks fuel secret) ⟨tokens, notes, warnings⟩ fun marked v =>
      ∃ n written rest, tokens = written ++ rest ∧ Marks n written ∧
        marked = (secret || decide (0 < n)) ∧ v = ⟨rest, notes, warnings⟩ := by
  have done : ∀ {secret tokens}, Gives (pure secret) ⟨tokens, notes, warnings⟩ fun marked v =>
      ∃ n written rest, tokens = written ++ rest ∧ Marks n written ∧
        marked = (secret || decide (0 < n)) ∧ v = ⟨rest, notes, warnings⟩ := fun {secret tokens} =>
    .pure ⟨0, [], tokens, rfl, .none, by simp, rfl⟩
  induction fuel with
  | zero => exact done
  | succ fuel ih =>
    intro secret tokens
    apply gives_accepted.bind
    rintro _ _ (⟨rfl, mark, _, rfl, written, rfl⟩ | ⟨rfl, rfl⟩)
    · apply gives_name.bind
      rintro ⟨name, _⟩ _ ⟨word, rest, rfl, named, rfl, rfl⟩
      dsimp only at named ⊢
      split
      · next secret =>
        subst secret
        refine ih.mono ?_
        rintro _ _ ⟨n, others, behind, rfl, marks, rfl, rfl⟩
        exact ⟨n + 1, mark :: word :: others, behind, rfl, .secret written named marks, by simp, rfl⟩
      · exact .fail
    · exact done

theorem identifier_of_capital {lexeme : Lexeme} {name : String} (named : lexeme.name? = some name)
    (capital : startsWithCapital name = true) : lexeme = .identifier name := by
  cases lexeme with
  | identifier => exact congrArg _ (Option.some.inj named)
  | keyword word =>
    cases named
    cases word <;> cases capital
  | primitive kind =>
    cases named
    cases kind <;> cases capital
  | _ => cases named

/-- No field is named twice, or as one that has been seen. -/
def Fresh (seen : List String) (ms : List MemberTree) : Prop :=
  (MemberTree.fieldNames ms).Nodup ∧ ∀ name ∈ seen, name ∉ MemberTree.fieldNames ms

theorem fresh_cons_iff {seen : List String} {m : MemberTree} {ms : List MemberTree} :
    Fresh seen (m :: ms) ↔ Fresh seen [m] ∧ Fresh (MemberTree.fieldNames [m] ++ seen) ms := by
  have names : MemberTree.fieldNames (m :: ms) =
      MemberTree.fieldNames [m] ++ MemberTree.fieldNames ms := List.filterMap_append (l := [m])
  unfold Fresh
  rw [names, List.nodup_append]
  constructor
  · rintro ⟨⟨own, behind, disjoint⟩, apart⟩
    refine ⟨⟨own, fun name known listed => apart name known (List.mem_append_left _ listed)⟩,
      behind, fun name known listed => ?_⟩
    rcases List.mem_append.mp known with here | before
    · exact disjoint name here name listed rfl
    · exact apart name before (List.mem_append_right _ listed)
  · rintro ⟨⟨own, new⟩, behind, apart⟩
    refine ⟨⟨own, behind, fun name here other listed same =>
      apart name (List.mem_append_left _ here) (same ▸ listed)⟩, fun name known listed => ?_⟩
    rcases List.mem_append.mp listed with here | later
    · exact new name known here
    · exact apart name (List.mem_append_right _ known) later

theorem fresh_field {seen : List String} {f : FieldTree} (new : seen.contains f.name = false) :
    Fresh seen [.field f] := by
  refine ⟨List.pairwise_singleton .., fun name known listed => ?_⟩
  obtain rfl := List.mem_singleton.mp listed
  exact Bool.eq_false_iff.mp new (List.contains_iff_mem.mpr known)

structure Reads (fuel : Nat) : Prop where
  type : ∀ tokens notes warnings, Gives (parseType fuel) ⟨tokens, notes, warnings⟩ fun t v =>
    notes = [] ∧ Past (.type t) tokens warnings v
  struct : ∀ tokens warnings, Gives (parseStruct fuel) ⟨tokens, [], warnings⟩ fun t v =>
    Past (.struct t) tokens warnings v
  members : ∀ seen tokens warnings, Gives (parseMembers fuel seen) ⟨tokens, [], warnings⟩ fun ms v =>
    Fresh seen ms ∧ Past (.members ms) tokens warnings v
  field : ∀ tokens notes warnings, Gives (parseField fuel) ⟨tokens, notes, warnings⟩ fun f v =>
    f.notes = notes ∧ Past (.field f) tokens warnings v
  values : ∀ tokens warnings, Gives (parseValues fuel) ⟨tokens, [], warnings⟩ fun vs v =>
    Past (.values vs) tokens warnings v
  arguments : ∀ seen tokens warnings,
    Gives (parseArguments fuel seen) ⟨tokens, [], warnings⟩ fun ms v =>
      Fresh seen ms ∧ Past (.arguments ms) tokens warnings v

variable {fuel : Nat}

theorem reads_type (reads : Reads fuel) : Gives (parseType (fuel + 1)) ⟨tokens, notes, warnings⟩
    fun t v => notes = [] ∧ Past (.type t) tokens warnings v := by
  unfold parseType
  apply gives_no_annotations.bind
  rintro _ _ ⟨rfl, rfl⟩
  apply gives_current.bind
  rintro token _ ⟨rest, rfl, rfl⟩
  extract_lets suffixed
  have ends : ∀ {base v}, Past (.type base) (token :: rest) warnings v →
      Gives (suffixed base) v fun t v => [] = ([] : List Note) ∧
        Past (.type t) (token :: rest) warnings v := by
    rintro base _ ⟨written, behind, same, derived, rfl⟩
    refine (gives_suffixes fuel derived).mono ?_
    rintro t _ ⟨more, further, rfl, derived, rfl⟩
    exact ⟨rfl, written ++ more, further, by rw [same, List.append_assoc], derived, rfl⟩
  split
  · next opens =>
    apply (reads.struct _ _).bind
    rintro t _ ⟨written, behind, same, derived, rfl⟩
    exact ends ⟨written, behind, same, .literal derived, rfl⟩
  · next keyword =>
    apply Gives.after takes_advance
    apply gives_mark.bind
    rintro brace _ ⟨_, rfl, opens, rfl⟩
    apply (reads.values _ _).bind
    rintro vs _ ⟨written, behind, rfl, derived, rfl⟩
    exact .after .pure (ends ⟨token :: brace :: written, behind, rfl, .enum keyword opens derived, rfl⟩)
  · next kind written =>
    exact .after takes_advance (.after .pure (ends ⟨[token], rest, rfl, .primitive written, rfl⟩))
  · next opens =>
    apply Gives.after takes_advance
    apply (reads.type _ _ _).bind
    rintro t _ ⟨_, written, _, rfl, derived, rfl⟩
    apply gives_mark.bind
    rintro right _ ⟨behind, rfl, closes, rfl⟩
    exact .after .pure (ends ⟨token :: (written ++ [right]), behind, by simp, .parens opens derived closes, rfl⟩)
  · split
    · exact .cut .fail
    · next name named =>
      apply Gives.after takes_advance
      apply gives_type_name.bind
      rintro _ _ ⟨capital, rfl⟩
      have written := identifier_of_capital named capital
      exact .after .pure (ends ⟨[token], rest, rfl, .reference written capital, rfl⟩)

theorem reads_struct (reads : Reads fuel) : Gives (parseStruct (fuel + 1)) ⟨tokens, [], warnings⟩
    fun t v => Past (.struct t) tokens warnings v := by
  unfold parseStruct
  apply gives_mark.bind
  rintro brace _ ⟨_, rfl, opens, rfl⟩
  apply (reads.members _ _ _).bind
  rintro ms _ ⟨⟨distinct, _⟩, written, rest, rfl, derived, rfl⟩
  exact .pure ⟨brace :: written, rest, rfl, .struct opens derived distinct, rfl⟩


theorem reads_members (reads : Reads fuel) (seen : List String) :
    Gives (parseMembers (fuel + 1) seen) ⟨tokens, [], warnings⟩ fun ms v =>
      Fresh seen ms ∧ Past (.members ms) tokens warnings v := by
  unfold parseMembers
  apply gives_collected.bind
  rintro _ _ ⟨noted, notes, tokens, rfl, annotated, rfl⟩
  apply gives_sees.bind
  rintro closed _ ⟨rfl, closed_iff⟩
  split
  · next closes =>
    obtain ⟨brace, rest, rfl, written⟩ := closed_iff.mp closes
    apply gives_no_annotations.bind
    rintro _ _ ⟨rfl, rfl⟩
    cases annotated
    exact .after takes_advance
      (.pure ⟨⟨List.nodup_nil, fun _ _ => List.not_mem_nil⟩, [brace], rest, rfl, .closed written, rfl⟩)
  · apply gives_sees.bind
    rintro spreads _ ⟨rfl, _⟩
    split
    · apply gives_spread.bind
      rintro m _ ⟨rfl, written, tokens, rfl, spread, rfl⟩
      cases annotated
      apply gives_maybe.bind
      rintro _ _ ⟨sep, tokens, rfl, separated, rfl⟩
      apply (reads.members seen _ _).bind
      rintro ms _ ⟨fresh, others, rest, rfl, derived, rfl⟩
      refine .pure ⟨?_, written ++ (sep ++ others), rest, by simp, .spread spread separated derived, rfl⟩
      cases spread
      exact fresh
    · apply (reads.field _ _ _).bind
      rintro f _ ⟨rfl, written, tokens, rfl, field, rfl⟩
      extract_lets continued
      have ends : seen.contains f.name = false → ∀ u, Gives (continued u) ⟨tokens, [], warnings⟩
          fun ms v => Fresh seen ms ∧ Past (.members ms) (noted ++ (written ++ tokens)) warnings v := by
        intro new u
        apply gives_maybe.bind
        rintro _ _ ⟨sep, tokens, rfl, separated, rfl⟩
        apply (reads.members _ _ _).bind
        rintro ms _ ⟨fresh, others, rest, rfl, derived, rfl⟩
        exact .pure ⟨fresh_cons_iff.mpr ⟨fresh_field new, fresh⟩,
          noted ++ (written ++ (sep ++ others)), rest, by simp,
          .member annotated field separated derived, rfl⟩
      split
      · exact .cut .fail
      · next new => exact ends (Bool.eq_false_iff.mpr new) ()

theorem reads_field (reads : Reads fuel) : Gives (parseField (fuel + 1)) ⟨tokens, notes, warnings⟩
    fun f v => f.notes = notes ∧ Past (.field f) tokens warnings v := by
  unfold parseField
  apply gives_name.bind
  rintro ⟨name, _⟩ _ ⟨word, _, rfl, named, rfl, rfl⟩
  apply gives_mark.bind
  rintro colon _ ⟨_, rfl, separated, rfl⟩
  apply Gives.after takes_annotations
  apply (reads.type _ _ _).bind
  rintro t _ ⟨_, written, _, rfl, type, rfl⟩
  apply (gives_field_marks fuel).bind
  rintro _ _ ⟨n, marked, rest, rfl, secret, rfl, rfl⟩
  refine .pure ⟨rfl, word :: colon :: (written ++ marked), rest, by simp, ?_, rfl⟩
  rw [Bool.false_or]
  exact .field named separated type secret trivial

theorem reads_values (reads : Reads fuel) : Gives (parseValues (fuel + 1)) ⟨tokens, [], warnings⟩
    fun vs v => Past (.values vs) tokens warnings v := by
  unfold parseValues
  apply gives_collected.bind
  rintro _ _ ⟨noted, notes, tokens, rfl, annotated, rfl⟩
  apply gives_sees.bind
  rintro closed _ ⟨rfl, closed_iff⟩
  split
  · next closes =>
    obtain ⟨brace, rest, rfl, written⟩ := closed_iff.mp closes
    apply gives_no_annotations.bind
    rintro _ _ ⟨rfl, rfl⟩
    cases annotated
    exact .after takes_advance (.pure ⟨[brace], rest, rfl, .complete written, rfl⟩)
  · apply Gives.get
    intro last imported
    extract_lets continued
    have ends : ∀ {word text rest}, Labels word text → tokens = word :: rest →
        Gives (continued (text, word.location)) ⟨rest, notes, warnings⟩
          fun vs v => Past (.values vs) (noted ++ tokens) warnings v := by
      rintro word text tokens labels rfl
      apply Gives.after takes_annotations
      apply gives_sees.bind
      rintro opens _ ⟨rfl, _⟩
      extract_lets closed
      split
      · have some : Gives (some <$> parseStruct fuel) ⟨tokens, [], warnings⟩ fun data v =>
            ∃ t, data = some t ∧ Past (.struct t) tokens warnings v :=
          (reads.struct _ _).bind fun t v past => .pure ⟨t, rfl, past⟩
        apply some.bind
        rintro _ _ ⟨t, rfl, written, tokens, rfl, data, rfl⟩
        apply gives_maybe.bind
        rintro _ _ ⟨sep, tokens, rfl, separated, rfl⟩
        apply (reads.values _ _).bind
        rintro vs _ ⟨others, rest, rfl, derived, rfl⟩
        exact .pure ⟨noted ++ word :: (written ++ (sep ++ others)), rest, by simp,
          .tagged annotated labels data separated derived, rfl⟩
      · apply Gives.after .pure
        apply gives_maybe.bind
        rintro _ _ ⟨sep, tokens, rfl, separated, rfl⟩
        apply (reads.values _ _).bind
        rintro vs _ ⟨others, rest, rfl, derived, rfl⟩
        exact .pure ⟨noted ++ word :: (sep ++ others), rest, by simp,
          .tag annotated labels separated derived, rfl⟩
    split
    · next text location now =>
      obtain ⟨rest, rfl⟩ := List.head?_eq_some_iff.mp now
      exact .after takes_advance
        (.after .pure (@ends ⟨.string text, location⟩ text rest (.inl rfl) rfl))
    · apply gives_name.bind
      rintro ⟨name, _⟩ _ ⟨word, rest, rfl, named, rfl, rfl⟩
      exact ends (.inr named) rfl

theorem reads_arguments (reads : Reads fuel) (seen : List String) :
    Gives (parseArguments (fuel + 1) seen) ⟨tokens, [], warnings⟩ fun ms v =>
      Fresh seen ms ∧ Past (.arguments ms) tokens warnings v := by
  have none : Fresh seen [] := ⟨List.nodup_nil, fun _ _ => List.not_mem_nil⟩
  unfold parseArguments
  apply gives_sees.bind
  rintro closed _ ⟨rfl, _⟩
  split
  · exact .pure ⟨none, [], tokens, rfl, .none, rfl⟩
  · apply gives_sees.bind
    rintro spreads _ ⟨rfl, _⟩
    split
    · apply gives_spread.bind
      rintro m _ ⟨_, written, tokens, rfl, spread, rfl⟩
      have same : ∀ {ms}, Fresh seen ms → Fresh seen (m :: ms) := by
        cases spread
        exact id
      apply gives_accepted.bind
      rintro _ _ (⟨rfl, comma, tokens, rfl, separated, rfl⟩ | ⟨rfl, rfl⟩)
      · apply (reads.arguments seen _ _).bind
        rintro ms _ ⟨fresh, others, rest, rfl, derived, rfl⟩
        exact .pure ⟨same fresh, written ++ comma :: others, rest, by simp,
          .more (.inherited spread) separated derived, rfl⟩
      · exact .pure ⟨same none, written, tokens, rfl, .last (.inherited spread), rfl⟩
    · apply (reads.field _ _ _).bind
      rintro f _ ⟨bare, written, tokens, rfl, field, rfl⟩
      extract_lets continued
      have ends : seen.contains f.name = false → ∀ u, Gives (continued u) ⟨tokens, [], warnings⟩
          fun ms v => Fresh seen ms ∧ Past (.arguments ms) (written ++ tokens) warnings v := by
        intro new u
        apply gives_accepted.bind
        rintro _ _ (⟨rfl, comma, tokens, rfl, separated, rfl⟩ | ⟨rfl, rfl⟩)
        · apply (reads.arguments _ _ _).bind
          rintro ms _ ⟨fresh, others, rest, rfl, derived, rfl⟩
          exact .pure ⟨fresh_cons_iff.mpr ⟨fresh_field new, fresh⟩, written ++ comma :: others, rest,
            by simp, .more (.own field bare) separated derived, rfl⟩
        · exact .pure ⟨fresh_field new, written, tokens, rfl, .last (.own field bare), rfl⟩
      split
      · exact .cut .fail
      · next new => exact ends (Bool.eq_false_iff.mpr new) ()

theorem reads_all (fuel : Nat) : Reads fuel := by
  induction fuel with
  | zero =>
    constructor
    · exact fun _ _ _ => .get fun _ _ => .fail
    · exact fun _ _ => .get fun _ _ => .fail
    · exact fun _ _ _ => .get fun _ _ => .fail
    · exact fun _ _ _ => .get fun _ _ => .fail
    · exact fun _ _ => .get fun _ _ => .fail
    · exact fun _ _ _ => .get fun _ _ => .fail
  | succ fuel ih =>
    exact ⟨fun _ _ _ => reads_type ih, fun _ _ => reads_struct ih, fun seen _ _ => reads_members ih seen,
      fun _ _ _ => reads_field ih, fun _ _ => reads_values ih, fun seen _ _ => reads_arguments ih seen⟩

theorem takes_remaining_fuel (v : View) :
    Takes remainingFuel v (2 * v.tokens.tail.length + 8) v := by
  intro last imported
  refine ⟨last, ?_⟩
  rw [← List.length_map]
  rfl

theorem gives_type_here : Gives parseTypeHere ⟨tokens, notes, warnings⟩ fun t v =>
    notes = [] ∧ Past (.type t) tokens warnings v :=
  .after (takes_remaining_fuel _) ((reads_all _).type _ _ _)

section Declarations

def PastDeclaration (d : Declaration) (notes : List Note) (tokens : List Token)
    (warnings : List String) (v : View) : Prop :=
  ∃ written rest, tokens = written ++ rest ∧ 2 ≤ written.length ∧
    (∀ noted, Grammar.Notes noted notes → Declares anyNumber d (noted ++ written)) ∧
      v = ⟨rest, [], warnings ++ d.warnings⟩

variable {word : Token}

theorem gives_type_declaration (keyword : word.lexeme = .keyword .type) :
    Gives parseTypeDeclaration ⟨word :: tokens, notes, warnings⟩ fun d v =>
      PastDeclaration (.type d) notes (word :: tokens) warnings v := by
  apply Gives.after takes_advance
  apply gives_name.bind
  rintro ⟨name, _⟩ _ ⟨label, tokens, rfl, named, rfl, rfl⟩
  dsimp -zeta only at named ⊢
  extract_lets continued
  have ends : startsWithCapital name = true → ∀ u, Gives (continued u) ⟨tokens, notes, warnings⟩
      fun d v => PastDeclaration (.type d) notes (word :: label :: tokens) warnings v := by
    intro capital u
    apply gives_maybe.bind
    rintro _ _ ⟨equals, tokens, rfl, defined, rfl⟩
    apply Gives.after takes_annotations
    apply gives_type_here.bind
    rintro t _ ⟨_, written, rest, rfl, type, rfl⟩
    exact .pure ⟨word :: label :: (equals ++ written), rest, by simp, by simp,
      fun noted annotated => .type annotated keyword named capital defined type,
      by rw [Declaration.warnings, List.append_nil]⟩
  split
  · next capital => exact ends capital ()
  · exact .cut .fail

theorem gives_error_declaration (keyword : word.lexeme = .keyword .error) :
    Gives parseErrorDeclaration ⟨word :: tokens, notes, warnings⟩ fun e v =>
      PastDeclaration (.error e) notes (word :: tokens) warnings v := by
  apply Gives.after takes_advance
  apply gives_name.bind
  rintro ⟨name, _⟩ _ ⟨label, tokens, rfl, named, rfl, rfl⟩
  dsimp -zeta only at named ⊢
  extract_lets continued
  have ends : startsWithCapital name = true → ∀ u, Gives (continued u) ⟨tokens, notes, warnings⟩
      fun e v => PastDeclaration (.error e) notes (word :: label :: tokens) warnings v := by
    intro capital u
    have last : ∀ {t written rest}, tokens = written ++ rest →
        Payload anyNumber label.location t written →
          Gives (pure ⟨name, t, notes, word.location⟩ : Parser ErrorDeclaration) ⟨rest, [], warnings⟩
            fun e v => PastDeclaration (.error e) notes (word :: label :: tokens) warnings v := by
      rintro t written rest rfl data
      exact .pure ⟨word :: label :: written, rest, rfl, by simp,
        fun noted annotated => .error annotated keyword named capital data,
        by rw [Declaration.warnings, List.append_nil]⟩
    apply Gives.after takes_annotations
    apply gives_accepted.bind
    rintro _ _ (⟨rfl, colon, behind, rfl, written, rfl⟩ | ⟨rfl, rfl⟩)
    · apply Gives.get
      intro _ _
      apply gives_type_here.bind
      rintro t _ ⟨_, ts, rest, rfl, type, rfl⟩
      exact last rfl (.announced (.colon written type))
    · apply Gives.get
      intro _ _
      rw [if_neg Bool.false_ne_true]
      split
      · apply gives_type_here.bind
        rintro t _ ⟨_, ts, rest, rfl, type, rfl⟩
        exact last rfl (.bare type)
      · exact .after .pure (last rfl (.announced .silent))
  split
  · next capital => exact ends capital ()
  · exact .cut .fail

theorem gives_distributed {ms : List MemberTree} {v : View}
    (distinct : (MemberTree.fieldNames ms).Nodup) :
    Gives (distributeNotes notes ms) v fun result v' => Targets notes ms ∧
      result = (notes.filter (!isAboutArgument ·), ms.map (described notes)) ∧ v' = v := by
  obtain ⟨moved, missing⟩ := distribute_notes_eq notes distinct
  by_cases targets : Targets notes ms
  · rw [moved targets]
    exact .pure ⟨targets, rfl, rfl⟩
  · obtain ⟨_, _, failed⟩ := missing targets
    rw [failed]
    exact .fail

theorem takes_warning (warning : String) :
    Takes (modify fun s => { s with warnings := s.warnings ++ [warning] })
      ⟨tokens, notes, warnings⟩ ⟨⟩ ⟨tokens, notes, warnings ++ [warning]⟩ := fun last _ => ⟨last, rfl⟩

theorem gives_function_declaration {k : Keyword} (listed : k ∈ [Keyword.fn, .get, .function])
    (keyword : word.lexeme = .keyword k) :
    Gives parseFunctionDeclaration ⟨word :: tokens, notes, warnings⟩ fun f v =>
      PastDeclaration (.function word f) notes (word :: tokens) warnings v := by
  apply Gives.after takes_annotations
  apply Gives.after takes_advance
  dsimp -zeta only
  extract_lets continued
  have ends : ∀ {warned}, warned = warnings ++ (if word.lexeme = .keyword .fn then []
        else [deprecationWarning word.lexeme.text word.location]) →
      ∀ u, Gives (continued u) ⟨tokens, [], warned⟩ fun f v =>
        PastDeclaration (.function word f) notes (word :: tokens) warnings v := by
    rintro _ rfl u
    apply gives_name.bind
    rintro ⟨name, _⟩ _ ⟨label, tokens, rfl, named, rfl, rfl⟩
    apply gives_mark.bind
    rintro left _ ⟨tokens, rfl, opens, rfl⟩
    apply Gives.after (takes_remaining_fuel _)
    apply ((reads_all _).arguments [] _ _).bind
    rintro ms _ ⟨⟨distinct, _⟩, args, tokens, rfl, arguments, rfl⟩
    apply gives_mark.bind
    rintro right _ ⟨tokens, rfl, closes, rfl⟩
    apply (gives_distributed distinct).bind
    rintro _ _ ⟨targets, rfl, rfl⟩
    have last : ∀ {t written rest}, tokens = written ++ rest →
        Announced anyNumber right.location t written → Gives
          (pure {
            name, members := ms.map (described notes), returns := t
            notes := notes.filter (!isAboutArgument ·)
            isGetter := word.lexeme == .keyword .get
            location := word.location } : Parser FunctionDeclaration)
          ⟨rest, [], warnings ++ (if word.lexeme = .keyword .fn then []
            else [deprecationWarning word.lexeme.text word.location])⟩
          fun f v => PastDeclaration (.function word f) notes
            (word :: label :: left :: (args ++ right :: tokens)) warnings v := by
      rintro t written rest rfl returns
      refine .pure ⟨word :: label :: left :: (args ++ right :: written), rest, by simp, by simp,
        fun noted annotated => ?_, rfl⟩
      exact .function annotated ⟨k, listed, keyword⟩ named opens arguments distinct closes targets returns
    apply gives_accepted.bind
    rintro _ _ (⟨rfl, colon, behind, rfl, written, rfl⟩ | ⟨rfl, rfl⟩)
    · apply gives_type_here.bind
      rintro t _ ⟨_, ts, rest, rfl, type, rfl⟩
      exact last rfl (.colon written type)
    · exact .after .pure (last rfl .silent)
  split
  · next other =>
    refine Gives.after (takes_warning _) (ends ?_ ())
    rw [if_neg other]
  · next same => exact ends (by rw [if_pos (not_not.mp same), List.append_nil]) ()

end Declarations

section Schemas

theorem Imports.behind {d : Declaration} {written : List Token} (first : Declares anyNumber d written)
    (imports : Imports tokens) : Imports (written ++ tokens) := by
  obtain ⟨ds, before, word, path, text, further, others, keyword, string, rfl⟩ := imports
  exact ⟨d :: ds, written ++ before, word, path, text, further, .more first others, keyword, string,
    (List.append_assoc ..).symm⟩

/-- What stands behind a schema that is being read. -/
structure Extends (schema : SchemaTree) (ds : List Declaration) (tree : SchemaTree) : Prop where
  types : tree.types = schema.types ++ (treeOf ds).types
  errors : tree.errors = schema.errors ++ (treeOf ds).errors
  functions : tree.functions = schema.functions ++ (treeOf ds).functions

theorem Extends.cons {schema tree : SchemaTree} {d : Declaration} {ds : List Declaration}
    (behind : Extends (d.addTo schema) ds tree) : Extends schema (d :: ds) tree := by
  obtain ⟨types, errors, functions⟩ := behind
  cases d with
  | type d => exact ⟨by rw [types]; exact List.append_assoc _ [d] _, errors, functions⟩
  | error e => exact ⟨types, by rw [errors]; exact List.append_assoc _ [e] _, functions⟩
  | function word f => exact ⟨types, errors, by rw [functions]; exact List.append_assoc _ [f] _⟩

theorem warnings_cons (d : Declaration) (ds : List Declaration) :
    (treeOf (d :: ds)).warnings = d.warnings ++ (treeOf ds).warnings := by
  cases d <;> rfl

end Schemas

end ApiSchema.Parser

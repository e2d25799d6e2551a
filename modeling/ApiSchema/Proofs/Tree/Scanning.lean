import ApiSchema.Proofs.Tree.Grammar

/-! What the parser has in front of it when no token is faulty, and what single steps of it take. -/

namespace ApiSchema.Parser

open Grammar

structure View where
  tokens : List Token
  notes : List Note
  warnings : List String

def View.state (v : View) (last : Location) (imported : List FilePath) : ParseState where
  current := v.tokens.head?
  rest := v.tokens.tail.map .ok
  last
  pending := v.notes
  warnings := v.warnings
  imported

variable {α β : Type}

/-- The parser returns `a` and moves on to the second view. -/
def Takes (p : Parser α) (v : View) (a : α) (v' : View) : Prop :=
  ∀ last imported, ∃ last', p.run (v.state last imported) = .ok (a, v'.state last' imported)

/-- The parser returns `a` and moves on to the second view, and to other imported files. -/
def Leads (p : Parser α) (v : View) (imported : List FilePath) (a : α) (v' : View)
    (imported' : List FilePath) : Prop :=
  ∀ last, ∃ last', p.run (v.state last imported) = .ok (a, v'.state last' imported')

/-- If the parser returns, then `post` holds of the result and of the view behind it. -/
def Gives (p : Parser α) (v : View) (post : α → View → Prop) : Prop :=
  ∀ last imported, Within p (v.state last imported) (fun _ => True) fun a s =>
    ∃ v' last', s = v'.state last' imported ∧ post a v'

section Rules

variable {p : Parser α} {next : α → Parser β} {v v' v'' : View} {a : α} {b : β}
  {mid : α → View → Prop} {post : β → View → Prop}

namespace Takes

theorem pure : Takes (Pure.pure a) v a v := fun last _ => ⟨last, rfl⟩

theorem leads {imported imported' : List FilePath} (first : Takes p v a v')
    (later : Leads (next a) v' imported b v'' imported') :
    Leads (p >>= next) v imported b v'' imported' := by
  intro last
  obtain ⟨last', ran⟩ := first last imported
  obtain ⟨last'', further⟩ := later last'
  refine ⟨last'', ?_⟩
  rw [StateT.run_bind, ran]
  exact further

theorem bind (first : Takes p v a v') (later : Takes (next a) v' b v'') :
    Takes (p >>= next) v b v'' :=
  fun last imported => first.leads (fun last => later last imported) last

theorem map (takes : Takes p v a v') (f : α → β) : Takes (f <$> p) v (f a) v' := by
  intro last imported
  obtain ⟨last', ran⟩ := takes last imported
  refine ⟨last', ?_⟩
  rw [StateT.run_map, ran]
  rfl

theorem get {post : ParseState → Parser β}
    (later : ∀ last imported, Takes (post (v.state last imported)) v b v') :
    Takes (MonadState.get >>= post) v b v' :=
  fun last imported => later last imported last imported

end Takes

theorem Leads.get {next : ParseState → Parser β} {imported imported' : List FilePath}
    (later : ∀ last, Leads (next (v.state last imported)) v imported b v' imported') :
    Leads (MonadState.get >>= next) v imported b v' imported' :=
  fun last => later last last

namespace Gives

theorem pure {a : β} (holds : post a v) : Gives (Pure.pure a) v post :=
  fun last _ => Within.pure ⟨v, last, rfl, holds⟩

theorem throw {e : ParseFailure} : Gives (throw e) v post := fun _ _ => Within.throw trivial

theorem fail {fault : ParseFault} {location : Location} : Gives (fail fault location) v post := throw

theorem bind (first : Gives p v mid) (later : ∀ a v', mid a v' → Gives (next a) v' post) :
    Gives (p >>= next) v post := by
  intro last imported
  apply Within.bind
  apply (first last imported).mono
  rintro a s ⟨v', last', rfl, holds⟩
  exact later a v' holds last' imported

theorem mono (gives : Gives p v mid) {other : α → View → Prop}
    (weaker : ∀ a v', mid a v' → other a v') : Gives p v other := by
  intro last imported
  apply (gives last imported).mono
  rintro a s ⟨v', last', rfl, holds⟩
  exact ⟨v', last', rfl, weaker a v' holds⟩

theorem cut (never : Gives p v fun _ _ => False) : Gives (p >>= next) v post :=
  never.bind fun _ _ => False.elim

theorem get {next : ParseState → Parser β}
    (later : ∀ last imported, Gives (next (v.state last imported)) v post) :
    Gives (MonadState.get >>= next) v post :=
  fun last imported => later last imported last imported

theorem of_takes (takes : Takes p v a v') (holds : mid a v') : Gives p v mid := by
  intro last imported
  obtain ⟨last', ran⟩ := takes last imported
  unfold Within
  rw [ran]
  exact ⟨v', last', rfl, holds⟩

theorem after (takes : Takes p v a v') (later : Gives (next a) v' post) : Gives (p >>= next) v post :=
  have exact : Gives p v fun b v => b = a ∧ v = v' := of_takes takes ⟨rfl, rfl⟩
  exact.bind fun _ _ ⟨same, front⟩ => by
    rw [same, front]
    exact later

theorem run (gives : Gives p v mid) {last : Location} {imported : List FilePath} {s : ParseState}
    (ran : p.run (v.state last imported) = .ok (a, s)) :
    ∃ v' last', s = v'.state last' imported ∧ mid a v' :=
  (gives last imported).of_ok ran

end Gives

end Rules

section Steps

variable {tokens rest : List Token} {notes : List Note} {warnings : List String} {token : Token}
  {m : Mark}

theorem takes_current : Takes current ⟨token :: rest, notes, warnings⟩ token
    ⟨token :: rest, notes, warnings⟩ := fun last _ => ⟨last, rfl⟩

theorem gives_current : Gives current ⟨tokens, notes, warnings⟩ fun t v' =>
    ∃ rest, tokens = t :: rest ∧ v' = ⟨tokens, notes, warnings⟩ := by
  cases tokens with
  | nil => exact fun _ _ => trivial
  | cons t rest => exact .of_takes takes_current ⟨rest, rfl, rfl⟩

theorem takes_advance : Takes advance ⟨token :: rest, notes, warnings⟩ token
    ⟨rest, notes, warnings⟩ := by
  intro last imported
  refine ⟨token.location, ?_⟩
  cases rest <;> rfl

theorem takes_sees (m : Mark) (v : View) :
    Takes (seesMark m) v (v.tokens.head?.any (·.lexeme == .mark m)) v := fun last _ => ⟨last, rfl⟩

theorem takes_seen (written : token.lexeme = .mark m) :
    Takes (seesMark m) ⟨token :: rest, notes, warnings⟩ true ⟨token :: rest, notes, warnings⟩ := by
  have seen := takes_sees m ⟨token :: rest, notes, warnings⟩
  simpa [written] using seen

def Lacks (tokens : List Token) (m : Mark) : Prop := ∀ t ∈ tokens.head?, t.lexeme ≠ .mark m

theorem takes_unseen {v : View} (lacks : Lacks v.tokens m) : Takes (seesMark m) v false v := by
  have seen := takes_sees m v
  have none : v.tokens.head?.any (·.lexeme == .mark m) = false := by
    rw [Option.any_eq_false_iff_get]
    intro present
    simpa using lacks _ (Option.get_mem present)
  rwa [none] at seen

theorem gives_sees : Gives (seesMark m) ⟨tokens, notes, warnings⟩ fun seen v' =>
    v' = ⟨tokens, notes, warnings⟩ ∧
      (seen = true ↔ ∃ t rest, tokens = t :: rest ∧ t.lexeme = .mark m) := by
  refine .of_takes (takes_sees m _) ⟨rfl, ?_⟩
  cases tokens <;> simp

theorem takes_mark (written : token.lexeme = .mark m) :
    Takes (expectMark m) ⟨token :: rest, notes, warnings⟩ token ⟨rest, notes, warnings⟩ := by
  apply takes_current.bind
  rw [if_pos written]
  exact takes_advance

theorem gives_mark : Gives (expectMark m) ⟨tokens, notes, warnings⟩ fun t v' =>
    ∃ rest, tokens = t :: rest ∧ t.lexeme = .mark m ∧ v' = ⟨rest, notes, warnings⟩ := by
  apply gives_current.bind
  rintro t _ ⟨rest, rfl, rfl⟩
  split
  · next written => exact .of_takes takes_advance ⟨rest, rfl, written, rfl⟩
  · exact .fail

theorem takes_accepted (written : token.lexeme = .mark m) :
    Takes (acceptMark m) ⟨token :: rest, notes, warnings⟩ true ⟨rest, notes, warnings⟩ :=
  (takes_seen written).bind (takes_advance.bind .pure)

theorem takes_not_accepted {v : View} (lacks : Lacks v.tokens m) : Takes (acceptMark m) v false v :=
  (takes_unseen lacks).bind .pure

theorem takes_maybe {written : List Token} (maybe : Maybe m written) (lacks : Lacks tokens m) :
    ∃ taken, ∀ notes warnings, Takes (acceptMark m) ⟨written ++ tokens, notes, warnings⟩ taken
      ⟨tokens, notes, warnings⟩ := by
  cases maybe with
  | absent => exact ⟨false, fun _ _ => takes_not_accepted lacks⟩
  | present written => exact ⟨true, fun _ _ => takes_accepted written⟩

theorem gives_accepted : Gives (acceptMark m) ⟨tokens, notes, warnings⟩ fun taken v' =>
    (taken = true ∧ ∃ t rest, tokens = t :: rest ∧ t.lexeme = .mark m ∧ v' = ⟨rest, notes, warnings⟩) ∨
      taken = false ∧ v' = ⟨tokens, notes, warnings⟩ := by
  apply gives_sees.bind
  rintro seen _ ⟨rfl, seen_iff⟩
  cases seen with
  | true =>
    obtain ⟨t, rest, rfl, written⟩ := seen_iff.mp rfl
    exact .after takes_advance (.pure (.inl ⟨rfl, t, rest, rfl, written, rfl⟩))
  | false => exact .pure (.inr ⟨rfl, rfl⟩)

theorem gives_maybe : Gives (acceptMark m) ⟨tokens, notes, warnings⟩ fun _ v' =>
    ∃ written rest, tokens = written ++ rest ∧ Maybe m written ∧ v' = ⟨rest, notes, warnings⟩ := by
  apply gives_accepted.mono
  rintro _ _ (⟨_, t, rest, rfl, written, rfl⟩ | ⟨_, rfl⟩)
  · exact ⟨[t], rest, rfl, .present written, rfl⟩
  · exact ⟨[], tokens, rfl, .absent, rfl⟩

theorem takes_name {name : String} (named : token.lexeme.name? = some name) :
    Takes expectName ⟨token :: rest, notes, warnings⟩ (name, token.location)
      ⟨rest, notes, warnings⟩ := by
  apply takes_current.bind
  rw [named]
  exact takes_advance.bind .pure

theorem gives_name : Gives expectName ⟨tokens, notes, warnings⟩ fun found v' =>
    ∃ t rest, tokens = t :: rest ∧ t.lexeme.name? = some found.1 ∧ found.2 = t.location ∧
      v' = ⟨rest, notes, warnings⟩ := by
  apply gives_current.bind
  rintro t _ ⟨rest, rfl, rfl⟩
  split
  · next name named =>
    exact .after takes_advance (.pure ⟨t, rest, rfl, named, rfl, rfl⟩)
  · exact .fail

theorem takes_no_annotations {tokens : List Token} :
    Takes checkNoAnnotations ⟨tokens, [], warnings⟩ ⟨⟩ ⟨tokens, [], warnings⟩ :=
  fun last _ => ⟨last, rfl⟩

theorem gives_no_annotations : Gives checkNoAnnotations ⟨tokens, notes, warnings⟩ fun _ v' =>
    notes = [] ∧ v' = ⟨tokens, notes, warnings⟩ := by
  cases notes with
  | nil => exact .of_takes takes_no_annotations ⟨rfl, rfl⟩
  | cons => exact fun _ _ => trivial

theorem takes_annotations : Takes takeAnnotations ⟨tokens, notes, warnings⟩ notes
    ⟨tokens, [], warnings⟩ := fun last _ => ⟨last, rfl⟩

theorem takes_type_name {name : String} {location : Location} {v : View}
    (capital : startsWithCapital name = true) : Takes (requireTypeName name location) v ⟨⟩ v := by
  unfold requireTypeName
  rw [if_pos capital]
  exact .pure

theorem gives_type_name {name : String} {location : Location} {v : View} :
    Gives (requireTypeName name location) v fun _ v' => startsWithCapital name = true ∧ v' = v := by
  unfold requireTypeName
  split
  · next capital => exact .pure ⟨capital, rfl⟩
  · exact .fail

end Steps

section Notes

variable {tokens rest : List Token} {notes waiting : List Note} {warnings : List String}

def Unannotated (tokens : List Token) : Prop :=
  ∀ t ∈ tokens.head?, ∀ text, t.lexeme ≠ .note text

theorem takes_waiting (note : Note) :
    Takes (modify fun s => { s with pending := s.pending ++ [note] }) ⟨tokens, waiting, warnings⟩ ⟨⟩
      ⟨tokens, waiting ++ [note], warnings⟩ := fun last _ => ⟨last, rfl⟩

theorem takes_note {token : Token} {note : Note} (written : IsNote token note) (fuel : Nat)
    {v' : View}
    (later : Takes (acceptAnnotations fuel) ⟨rest, waiting ++ [note], warnings⟩ ⟨⟩ v') :
    Takes (acceptAnnotations (fuel + 1)) ⟨token :: rest, waiting, warnings⟩ ⟨⟩ v' := by
  obtain ⟨⟨lexeme, location⟩, same⟩ : ∃ t : Token, t = token := ⟨token, rfl⟩
  subst same
  obtain ⟨text, content, rfl, stands, rfl⟩ := written
  apply Takes.get
  intro last imported
  apply takes_advance.bind
  have known : Takes (noteOf text location) ⟨rest, waiting, warnings⟩ ⟨content, location⟩
      ⟨rest, waiting, warnings⟩ := by
    unfold noteOf
    rw [stands]
    exact .pure
  apply known.bind
  exact (takes_waiting _).bind later

theorem takes_notes {noted : List Token} (annotated : Grammar.Notes noted notes)
    (unannotated : Unannotated rest) : ∀ {fuel waiting}, noted.length ≤ fuel →
      Takes (acceptAnnotations fuel) ⟨noted ++ rest, waiting, warnings⟩ ⟨⟩
        ⟨rest, waiting ++ notes, warnings⟩ := by
  induction annotated with
  | nil =>
    intro fuel waiting _
    rw [List.append_nil]
    cases fuel with
    | zero => exact .pure
    | succ fuel =>
      apply Takes.get
      intro last imported
      cases rest with
      | nil => exact .pure
      | cons t rest =>
        obtain ⟨lexeme, location⟩ := t
        cases lexeme with
        | note text => exact absurd rfl (unannotated _ rfl text)
        | _ => exact .pure
  | @cons _ note _ _ first _ ih =>
    intro fuel waiting enough
    cases fuel with
    | zero => exact absurd enough (Nat.not_succ_le_zero _)
    | succ fuel =>
      have later := @ih fuel (waiting ++ [note]) (Nat.le_of_succ_le_succ enough)
      rw [List.append_assoc] at later
      exact takes_note first fuel later

theorem takes_collected {noted : List Token} (annotated : Grammar.Notes noted notes)
    (unannotated : Unannotated rest) :
    Takes collectAnnotations ⟨noted ++ rest, [], warnings⟩ ⟨⟩ ⟨rest, notes, warnings⟩ := by
  apply Takes.get
  intro last imported
  refine @takes_notes _ _ _ noted annotated unannotated _ [] ?_
  simp only [View.state, List.length_map, List.length_tail, List.length_append]
  omega

theorem gives_notes {fuel : Nat} : ∀ {tokens waiting},
    Gives (acceptAnnotations fuel) ⟨tokens, waiting, warnings⟩ fun _ v' =>
      ∃ noted notes rest, tokens = noted ++ rest ∧ Grammar.Notes noted notes ∧
        v' = ⟨rest, waiting ++ notes, warnings⟩ := by
  induction fuel with
  | zero => exact fun {tokens waiting} => .pure ⟨[], [], tokens, rfl, .nil, by rw [List.append_nil]⟩
  | succ fuel ih =>
    intro tokens waiting
    apply Gives.get
    intro last imported
    split
    · next text location now =>
      obtain ⟨rest, rfl⟩ := List.head?_eq_some_iff.mp now
      apply Gives.after takes_advance
      unfold noteOf
      split
      · next content stands =>
        refine Gives.after .pure (.after (takes_waiting ⟨content, location⟩) (ih.mono ?_))
        rintro _ _ ⟨noted, notes, behind, rfl, annotated, rfl⟩
        refine ⟨⟨.note text, location⟩ :: noted, ⟨content, location⟩ :: notes, behind, rfl,
          .cons ⟨text, content, rfl, stands, rfl⟩ annotated, ?_⟩
        rw [List.append_assoc]
        rfl
      · exact .cut .throw
      · exact .cut .fail
    · exact .pure ⟨[], [], tokens, rfl, .nil, by rw [List.append_nil]⟩

theorem gives_collected : Gives collectAnnotations ⟨tokens, [], warnings⟩ fun _ v' =>
    ∃ noted notes rest, tokens = noted ++ rest ∧ Grammar.Notes noted notes ∧
      v' = ⟨rest, notes, warnings⟩ :=
  .get fun _ _ => gives_notes

end Notes

end ApiSchema.Parser

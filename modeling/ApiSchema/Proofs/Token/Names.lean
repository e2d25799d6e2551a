import ApiSchema.Token.Lexer

/-! The names in a source have characters, all of them name characters. -/

namespace ApiSchema

def Lexer.IsName (name : String) : Prop := ∀ c ∈ name.toList, isNamePart c = true

structure Lexer.IsWord (name : String) : Prop where
  present : name ≠ ""
  spelt : IsName name

/-- If the lexeme can stand for a name, that name is a word. -/
def Lexeme.IsSpelt (lexeme : Lexeme) : Prop := ∀ name, lexeme.name? = some name → Lexer.IsWord name

theorem Lexeme.of_word_name (word : String) : (ofWord word).name? = some word := by
  unfold ofWord
  cases keyword : Keyword.ofText? word with
  | some k =>
    have same : k.text = word := by simpa using List.find?_some keyword
    exact congrArg some same
  | none =>
    cases primitive : Primitive.ofName? word with
    | some p => exact congrArg some (Primitive.name_of_ofName? primitive)
    | none => rfl

namespace Lexer

theorem read_name_parts (cs : List Char) (p : Position) :
    ∀ c ∈ (readName cs p).1, isNamePart c = true := by
  induction cs generalizing p with
  | nil => exact nofun
  | cons first rest ih =>
    unfold readName
    split
    · next part =>
      intro c member
      rcases List.mem_cons.mp member with rfl | later
      · exact part
      · exact ih _ c later
    · exact nofun

theorem is_name_part_of_start {c : Char} (start : isNameStart c = true) : isNamePart c = true := by
  simp only [isNameStart, isNamePart, Char.isAlphanum, Bool.or_eq_true] at start ⊢
  exact start.imp .inl id

theorem read_lexeme_spelt (c : Char) (rest : List Char) (p : Position) :
    ∀ lexeme, (readLexeme c rest p).1 = .ok lexeme → lexeme.IsSpelt := by
  intro lexeme read name named
  unfold readLexeme at read
  extract_lets next at read
  split at read
  · cases read
    cases named
  split at read
  · split at read <;> cases read
    cases named
  split at read
  · split at read
    split at read <;> cases read
    cases named
  split at read
  · cases read
    cases named
  split at read
  · split at read
    split at read <;> cases read
    cases named
  split at read
  · next start =>
    cases read
    rw [Lexeme.of_word_name] at named
    cases named
    refine ⟨fun none => ?_, fun d member => ?_⟩
    · have chars := congrArg String.toList none
      rw [String.toList_ofList] at chars
      cases chars
    rw [String.toList_ofList] at member
    rcases List.mem_cons.mp member with rfl | later
    · exact is_name_part_of_start start
    · exact read_name_parts rest next d later
  · cases read

theorem next_token_spelt {file : String} {cursor : Cursor} {token : Token}
    (read : (nextToken file cursor).1 = .ok (some token)) : token.lexeme.IsSpelt := by
  unfold nextToken at read
  extract_lets start at read
  split at read
  · cases read
  · next c rest _ =>
    dsimp only at read
    have spelt := read_lexeme_spelt c rest start.position
    cases outcome : readLexeme c rest start.position with
    | mk lexeme cursor =>
      rw [outcome] at read spelt
      cases lexeme with
      | error fault => cases read
      | ok lexeme =>
        cases read
        exact spelt lexeme rfl

end Lexer

theorem TokenStream.of_source_each {file source : String} {holds : Token → Prop}
    (next : ∀ cursor token, (Lexer.nextToken file cursor).1 = .ok (some token) → holds token) :
    ∀ token, .ok token ∈ ofSource file source → holds token := by
  have step : ∀ fuel cursor token, .ok token ∈ read file fuel cursor → holds token := by
    intro fuel
    induction fuel with
    | zero => exact nofun
    | succ fuel ih =>
      intro cursor token member
      have first := next cursor
      unfold read at member
      split at member
      · cases member
      · next token' cursor' outcome =>
        rw [outcome] at first
        rcases List.mem_cons.mp member with same | later
        · cases same
          exact first token rfl
        · exact ih cursor' token later
      · rcases List.mem_singleton.mp member with same
        cases same
  exact step _ _

theorem TokenStream.of_source_spelt {file source : String} :
    ∀ token, .ok token ∈ ofSource file source → token.lexeme.IsSpelt :=
  of_source_each fun _ _ read => Lexer.next_token_spelt read

theorem TokenStream.of_source_located {file source : String} :
    ∀ token, .ok token ∈ ofSource file source → token.location.file = file := by
  refine of_source_each fun cursor token read => ?_
  unfold Lexer.nextToken at read
  extract_lets start at read
  split at read
  · cases read
  · next c rest _ =>
    dsimp only at read
    split at read
    · cases read
      rfl
    · cases read

end ApiSchema

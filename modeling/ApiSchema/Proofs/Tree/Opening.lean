import ApiSchema.Proofs.FileTree.Unread
import ApiSchema.Proofs.Tree.Drawing
import ApiSchema.Proofs.Tree.Reading

/-! The loop over declarations in front of any tokens, faulty ones among them. Each step takes two
tokens, or opens a file for the first time, so that it comes to the end of all that it opens, or to a
fault. -/

namespace ApiSchema.Parser

open Grammar

section Streams

theorem stream_of_tokens {stream : TokenStream} {tokens : List Token} (read : stream.tokens = .ok tokens) :
    stream = tokens.map .ok := by
  induction stream generalizing tokens with
  | nil =>
    cases read
    rfl
  | cons first rest ih =>
    cases first with
    | error e => cases read
    | ok token =>
      simp only [TokenStream.tokens] at read
      cases others : TokenStream.tokens rest with
      | error e =>
        rw [others] at read
        cases read
      | ok more =>
        rw [others] at read
        cases read
        rw [ih others]
        rfl

theorem read_length_le (file : String) (fuel : Nat) : ∀ cursor,
    (TokenStream.read file fuel cursor).length ≤ fuel := by
  induction fuel with
  | zero => exact fun _ => Nat.zero_le _
  | succ fuel ih =>
    intro cursor
    unfold TokenStream.read
    split
    · exact Nat.zero_le _
    · exact Nat.succ_le_succ (ih _)
    · exact Nat.succ_le_succ (Nat.zero_le _)

theorem stream_length_le (file text : String) :
    (TokenStream.ofSource file text).length ≤ 2 * text.length := by
  have short : (TokenStream.ofSource file text).length ≤ text.length + 1 := read_length_le file _ _
  by_cases empty : text = ""
  · subst empty
    exact Nat.le_refl _
  · have present : text.length ≠ 0 := fun none => empty (String.length_eq_zero_iff.mp none)
    omega

theorem tokens_of_stream {stream : TokenStream} (clean : ∀ e, .error e ∉ stream) :
    ∃ tokens, stream.tokens = .ok tokens := by
  induction stream with
  | nil => exact ⟨[], rfl⟩
  | cons first rest ih =>
    cases first with
    | error e => exact absurd (List.mem_cons_self ..) (clean e)
    | ok token =>
      obtain ⟨tokens, read⟩ := ih fun e met => clean e (List.mem_cons_of_mem _ met)
      refine ⟨token :: tokens, ?_⟩
      rw [TokenStream.tokens, read]
      rfl

theorem state_of_ahead {s : ParseState} {tokens : List Token} (settled : s.Settled)
    (ahead : s.ahead = tokens.map .ok) :
    s = View.state ⟨tokens, s.pending, s.warnings⟩ s.last s.imported := by
  obtain ⟨current, rest, last, pending, warnings, imported⟩ := s
  cases current with
  | none =>
    obtain rfl : rest = [] := settled rfl
    obtain rfl : tokens = [] := List.map_eq_nil_iff.mp ahead.symm
    rfl
  | some token =>
    cases tokens with
    | nil => cases ahead
    | cons first behind =>
      obtain ⟨same, others⟩ := List.cons_eq_cons.mp ahead
      obtain rfl := Except.ok.inj same
      exact congrArg (fun rest => ParseState.mk (some token) rest last pending warnings imported) others

theorem view_ahead (v : View) (last : Location) (imported : List FilePath) :
    (v.state last imported).ahead = v.tokens.map .ok := by
  obtain ⟨tokens, notes, warnings⟩ := v
  cases tokens <;> rfl

theorem tokens_of_ahead {tokens : List Token} {word path : Token} {behind : TokenStream}
    (ahead : tokens.map Except.ok = .ok word :: .ok path :: behind) :
    ∃ rest, tokens = word :: path :: rest ∧ behind = rest.map .ok := by
  obtain ⟨_, more, rfl, first, others⟩ := List.map_eq_cons_iff.mp ahead
  obtain ⟨_, rest, rfl, second, last⟩ := List.map_eq_cons_iff.mp others
  cases first
  cases second
  exact ⟨rest, rfl, last.symm⟩

end Streams

/-- What is known of some texts is known of the files that they import as well. -/
def Closed (files : FileTree) (known : Except LexerError Token → Prop) : Prop :=
  ∀ {path text content}, known (.ok path) → path.lexeme = .string text →
    files.readText (importPath files path.location.file text) = .ok content →
      ∀ x ∈ TokenStream.ofSource (importPath files path.location.file text).text content, known x

/-- Why declarations cannot be read: for the grammar, or for a fault of what is known. -/
inductive Faults (files : FileTree) (known : Except LexerError Token → Prop) : ParseFailure → Prop where
  | lexer {e} (met : known (.error e)) : Faults files known (.lexer e)
  | grammar (e : ParseError) : Faults files known (.grammar e)
  | number {text location} (met : known (.ok ⟨.note text, location⟩))
    (long : annotationOf text = .ok none) : Faults files known .numberTooLong
  | notText {path text e} (met : known (.ok path)) (string : path.lexeme = .string text)
    (failed : files.readText (importPath files path.location.file text) = .error e)
    (other : ∀ fault, e ≠ .system fault) : Faults files known .notText

/-- How an import directive is taken: a file that was imported before says nothing more, and the
tokens of another one come first. -/
inductive Directed (files : FileTree) (s s' : ParseState) : Prop where
  | again {word path text} (ahead : s.ahead = .ok word :: .ok path :: s'.ahead)
    (string : path.lexeme = .string text)
    (known : importPath files path.location.file text ∈ s.imported)
    (imported : s'.imported = s.imported)
  | opened {word path text content rest} (ahead : s.ahead = .ok word :: .ok path :: rest)
    (string : path.lexeme = .string text)
    (new : importPath files path.location.file text ∉ s.imported)
    (read : files.readText (importPath files path.location.file text) = .ok content)
    (front : s'.ahead =
      TokenStream.ofSource (importPath files path.location.file text).text content ++ rest)
    (imported : s'.imported = importPath files path.location.file text :: s.imported)

section States

variable {files : FileTree} {known : Except LexerError Token → Prop} {s : ParseState}

theorem Blames.faults {tokens : TokenStream} {e : ParseFailure} (blames : Blames tokens e)
    (all : ∀ x ∈ tokens, known x) : Faults files known e := by
  cases blames with
  | lexer met => exact .lexer (all _ met)
  | grammar e => exact .grammar e
  | number met long => exact .number (all _ met) long

theorem no_annotations_within (s : ParseState) :
    Within checkNoAnnotations s (Blames s.ahead) fun _ s' => s.pending = [] ∧ s' = s := by
  apply Within.bind
  apply Within.get
  cases pending : s.pending with
  | nil => exact Within.pure ⟨rfl, rfl⟩
  | cons => exact Within.throw (.grammar _)

theorem import_within (closed : Closed files known) (all : ∀ x ∈ s.ahead, known x) :
    Within (parseImport files) s (Faults files known) fun _ s' => Directed files s s' ∧ s'.Settled ∧
      s.pending = [] ∧ s'.pending = [] ∧ s'.warnings = s.warnings := by
  apply Within.bind
  apply ((no_annotations_within s).weaken fun e blames => blames.faults all).mono
  rintro _ s ⟨waiting, rfl⟩
  apply Within.bind
  apply ((advance_within s).weaken fun e blames => blames.faults all).mono
  rintro word s₁ ⟨first, settled, imported, pending, warnings⟩
  have all₁ : ∀ x ∈ s₁.ahead, known x := fun x met => all x (first ▸ List.mem_cons_of_mem _ met)
  rw [waiting] at pending
  apply Within.bind
  apply ((current_within s₁).weaken fun e blames => blames.faults all₁).mono
  rintro path s₁ ⟨now, rfl⟩
  have second : s₁.ahead = .ok path :: s₁.rest := by rw [ParseState.ahead, now]; rfl
  have behind : ∀ x ∈ s₁.rest, known x := fun x met => all₁ x (second ▸ List.mem_cons_of_mem _ met)
  have met : known (.ok path) := all₁ _ (second ▸ List.mem_cons_self ..)
  rw [second] at first
  split
  · next text string =>
    extract_lets target
    apply Within.bind
    apply Within.modify
    apply Within.bind
    apply Within.get
    split
    · next contained =>
      have listed : target ∈ s₁.imported := by simpa using contained
      have read := read_ahead_within { s₁ with last := path.location }
      refine (read.weaken fun e blames => blames.faults behind).mono ?_
      rintro _ s₂ ⟨ahead, settled', same, kept, warned⟩
      have taken : s.ahead = .ok word :: .ok path :: s₂.ahead := by rw [first, ahead]
      exact ⟨.again taken string (imported ▸ listed) (same.trans imported), settled', waiting,
        kept.trans pending, warned.trans warnings⟩
    · next absent =>
      have fresh : target ∉ s₁.imported := by simpa using absent
      split
      · next content read =>
        have all₂ : ∀ x ∈ TokenStream.ofSource target.text content ++ s₁.rest, known x := by
          intro x member
          rcases List.mem_append.mp member with new | old
          · exact closed met string read x new
          · exact behind x old
        apply Within.bind
        apply Within.modify
        refine ((read_ahead_within _).weaken fun e blames => blames.faults all₂).mono ?_
        rintro _ s₂ ⟨ahead, settled', same, kept, warned⟩
        refine ⟨.opened first string (imported ▸ fresh) read ahead ?_, settled', waiting,
          kept.trans pending, warned.trans warnings⟩
        rw [same, ← imported]
      · exact Within.throw (.grammar _)
      · next e other failed => exact Within.throw (.notText met string failed fun fault => other fault)
  · exact Within.throw (.grammar _)

/-- The steps that are left: two tokens at each of them, and twice the bytes that are still unread. -/
def Enough (files : FileTree) (s : ParseState) (fuel : Nat) : Prop :=
  s.ahead.length + 2 * files.unread s.imported < 2 * fuel

theorem enough_before (files : FileTree) {file source : String}
    (ahead : s.ahead = TokenStream.ofSource file source) :
    Enough files s (source.length + files.totalSize + 1) := by
  have short : (TokenStream.ofSource file source).length ≤ source.length + 1 := read_length_le file _ _
  have left := files.unread_le_total s.imported
  unfold Enough
  rw [ahead]
  omega

theorem Enough.drawn {s₁ s₂ : ParseState} {fuel : Nat} (enough : Enough files s (fuel + 1))
    (noted : Drawn 0 s s₁) (drawn : Drawn 2 s₁ s₂) : Enough files s₂ fuel := by
  have shorter := noted.length_le
  have less := drawn.length_le
  unfold Enough at enough ⊢
  rw [drawn.imported, noted.imported]
  omega

/-- A directive takes two tokens, and the tokens of a file are no more than twice its bytes. -/
theorem Enough.directed {s₁ s₂ : ParseState} {fuel : Nat} (enough : Enough files s (fuel + 1))
    (noted : Drawn 0 s s₁) (directed : Directed files s₁ s₂) : Enough files s₂ fuel := by
  have shorter := noted.length_le
  unfold Enough at enough ⊢
  cases directed with
  | again ahead string listed imported =>
    rw [ahead] at shorter
    simp only [List.length_cons] at shorter
    rw [imported, noted.imported]
    omega
  | @opened word path text content rest ahead string new read front imported =>
    have left := FileTree.unread_of_read_text read new
    have tokens := stream_length_le (importPath files path.location.file text).text content
    change _ + files.unread (importPath files path.location.file text :: s₁.imported) ≤ _ at left
    rw [ahead] at shorter
    simp only [List.length_cons] at shorter
    rw [imported, front, List.length_append]
    rw [noted.imported] at left ⊢
    omega

theorem Directed.ahead_known {s' : ParseState} (directed : Directed files s s') (closed : Closed files known)
    (all : ∀ x ∈ s.ahead, known x) : ∀ x ∈ s'.ahead, known x := by
  cases directed with
  | again ahead =>
    rw [ahead] at all
    exact fun x met => all x (List.mem_cons_of_mem _ (List.mem_cons_of_mem _ met))
  | @opened word path text content rest ahead string new read front imported =>
    rw [ahead] at all
    have met : known (.ok path) := all _ (List.mem_cons_of_mem _ (List.mem_cons_self ..))
    intro x member
    rw [front] at member
    rcases List.mem_append.mp member with inside | behind
    · exact closed met string read x inside
    · exact all x (List.mem_cons_of_mem _ (List.mem_cons_of_mem _ behind))

theorem Directed.error_mem {s' : ParseState} (directed : Directed files s s') {e : LexerError}
    (met : .error e ∈ s.ahead) : .error e ∈ s'.ahead := by
  cases directed with
  | again ahead =>
    rw [ahead] at met
    simpa using met
  | opened ahead _ _ _ front =>
    rw [ahead] at met
    rw [front]
    exact List.mem_append_right _ (by simpa using met)

theorem ahead_of_ended (settled : s.Settled) (ended : s.current = none) : s.ahead = [] := by
  rw [ParseState.ahead, ended, settled ended]
  rfl

theorem declarations_within (closed : Closed files known) (fuel : Nat) : ∀ {schema s}, s.Settled →
    (∀ x ∈ s.ahead, known x) → Enough files s fuel →
      Within (parseDeclarations files fuel schema) s (Faults files known) fun _ _ =>
        ∀ e, .error e ∉ s.ahead := by
  -- On the fuel. Faults ahead stay ahead until the loop meets them, for only tokens are taken.
  induction fuel with
  | zero => exact fun _ _ enough => absurd enough (Nat.not_lt_zero _)
  | succ fuel ih =>
    intro schema s settled all enough
    apply Within.bind
    apply Within.get
    split
    · next none =>
      have empty := ahead_of_ended settled (Option.isNone_iff_eq_none.mp none)
      exact Within.pure fun e met => by rw [empty] at met; cases met
    · apply Within.bind
      apply ((Sequential.draws s settled).weaken fun e blames => blames.faults all).mono
      intro _ s₁ drawn
      have all₁ : ∀ x ∈ s₁.ahead, known x := fun x met => all x (drawn.subset met)
      have further : ∀ {α : Type} {p : Parser α} {next : α → SchemaTree}, Draws 2 p →
          Within (p >>= fun a => parseDeclarations files fuel (next a)) s₁ (Faults files known)
            fun _ _ => ∀ e, .error e ∉ s.ahead := by
        intro α p next draws
        apply Within.bind
        apply ((draws s₁ drawn.settled).weaken fun e blames => blames.faults all₁).mono
        intro a s₂ drawn'
        have run := @ih (next a) s₂ drawn'.settled (fun x met => all₁ x (drawn'.subset met))
          (enough.drawn drawn drawn')
        exact run.mono fun _ _ clean e met => clean e (drawn'.error_mem (drawn.error_mem met))
      apply Within.bind
      apply Within.get
      split
      · next none =>
        apply Within.bind
        apply ((no_annotations_within s₁).weaken fun e blames => blames.faults all₁).mono
        rintro _ s₂ ⟨_, rfl⟩
        refine Within.pure fun e met => ?_
        have behind := drawn.error_mem met
        rw [ahead_of_ended drawn.settled none] at behind
        cases behind
      · split
        · exact further parse_type_declaration_draws
        · exact further parse_error_declaration_draws
        · exact further parse_function_declaration_draws
        · exact further parse_function_declaration_draws
        · exact further parse_function_declaration_draws
        · apply Within.bind
          apply (import_within closed all₁).mono
          rintro _ s₂ ⟨directed, settled', _⟩
          have run := @ih schema s₂ settled' (directed.ahead_known closed all₁)
            (enough.directed drawn directed)
          exact run.mono fun _ _ clean e met => clean e (directed.error_mem (drawn.error_mem met))
        · exact Within.throw (.grammar _)

theorem run_bind_congr {α β : Type} {p : Parser α} {next next' : α → Parser β} {fault : ParseFailure → Prop}
    {post : α → ParseState → Prop} (run : Within p s fault post)
    (same : ∀ a s', post a s' → (next a).run s' = (next' a).run s') :
    (p >>= next).run s = (p >>= next').run s := by
  rw [StateT.run_bind, StateT.run_bind]
  cases ran : p.run s with
  | error e => rfl
  | ok r => exact same r.1 r.2 (run.of_ok ran)

theorem declarations_stable (fuel : Nat) : ∀ {schema s more}, s.Settled → Enough files s fuel →
    fuel ≤ more →
      (parseDeclarations files more schema).run s = (parseDeclarations files fuel schema).run s := by
  have everything : Closed files fun _ => True := fun _ _ _ _ _ => trivial
  induction fuel with
  | zero => exact fun _ enough => absurd enough (Nat.not_lt_zero _)
  | succ fuel ih =>
    intro schema s more settled enough le
    obtain ⟨more, rfl⟩ : ∃ n, more = n + 1 := ⟨more - 1, by omega⟩
    have le : fuel ≤ more := by omega
    rw [parseDeclarations, parseDeclarations]
    have got : ∀ s : ParseState, Within (get : Parser ParseState) s (fun _ => True) fun now s' =>
        s = now ∧ s = s' := fun s => Within.get ⟨rfl, rfl⟩
    refine run_bind_congr (got s) ?_
    rintro _ _ ⟨rfl, rfl⟩
    split
    · rfl
    refine run_bind_congr (Sequential.draws _ settled) fun _ s₁ noted => ?_
    refine run_bind_congr (got s₁) ?_
    rintro _ _ ⟨rfl, rfl⟩
    have further : ∀ {α : Type} {p : Parser α} {next : α → SchemaTree}, Draws 2 p →
        (p >>= fun a => parseDeclarations files more (next a)).run s₁ =
          (p >>= fun a => parseDeclarations files fuel (next a)).run s₁ := fun draws =>
      run_bind_congr (draws s₁ noted.settled) fun _ s₂ drawn =>
        ih drawn.settled (enough.drawn noted drawn) le
    split
    · rfl
    · split
      · exact further parse_type_declaration_draws
      · exact further parse_error_declaration_draws
      · exact further parse_function_declaration_draws
      · exact further parse_function_declaration_draws
      · exact further parse_function_declaration_draws
      · refine run_bind_congr (import_within everything fun _ _ => trivial) ?_
        rintro _ s₂ ⟨directed, settled', _⟩
        exact ih settled' (enough.directed noted directed) le
      · rfl

end States

section Rounds

variable {files : FileTree} {imported : List FilePath} {fuel : Nat} {schema : SchemaTree}
  {tokens : List Token} {warnings : List String} {last : Location} {s : ParseState}

inductive Stepped (files : FileTree) (fuel : Nat) (schema : SchemaTree) (tokens : List Token)
    (warnings : List String) (imported : List FilePath) (r : SchemaTree × ParseState) : Prop where
  | done (empty : tokens = []) (same : r.1 = schema) (warned : r.2.warnings = warnings)
  | declared {d written rest last} (split : tokens = written ++ rest)
    (declares : Declares anyNumber d written)
    (further : (parseDeclarations files fuel (d.addTo schema)).run
      (View.state ⟨rest, [], warnings ++ d.warnings⟩ last imported) = .ok r)
  | again {word path text rest last} (split : tokens = word :: path :: rest)
    (keyword : word.lexeme = .keyword .importing) (string : path.lexeme = .string text)
    (known : importPath files path.location.file text ∈ imported)
    (further : (parseDeclarations files fuel schema).run
      (View.state ⟨rest, [], warnings⟩ last imported) = .ok r)
  | opened {word path text content rest s} (split : tokens = word :: path :: rest)
    (keyword : word.lexeme = .keyword .importing) (string : path.lexeme = .string text)
    (new : importPath files path.location.file text ∉ imported)
    (read : files.readText (importPath files path.location.file text) = .ok content)
    (front : s.ahead = TokenStream.ofSource (importPath files path.location.file text).text content ++
      rest.map .ok)
    (settled : s.Settled) (waiting : s.pending = []) (warned : s.warnings = warnings)
    (same : s.imported = importPath files path.location.file text :: imported)
    (further : (parseDeclarations files fuel schema).run s = .ok r)

theorem within_of_run {α : Type} {p : Parser α} {post : α → ParseState → Prop}
    (ran : ∀ a s', p.run s = .ok (a, s') → post a s') : Within p s (fun _ => True) post := by
  unfold Within
  split
  · next a s' ok => exact ran a s' ok
  · trivial

theorem stepped_of_run {r : SchemaTree × ParseState}
    (ran : (parseDeclarations files (fuel + 1) schema).run
      (View.state ⟨tokens, [], warnings⟩ last imported) = .ok r) :
    Stepped files fuel schema tokens warnings imported r := by
  -- `Within` follows the steps, and the run of the rest is kept as it is at each of their ends.
  suffices whole : Within (parseDeclarations files (fuel + 1) schema)
      (View.state ⟨tokens, [], warnings⟩ last imported) (fun _ => True)
      fun tree s => Stepped files fuel schema tokens warnings imported (tree, s) from whole.of_ok ran
  apply Within.bind
  apply Within.get
  split
  · next none =>
    have empty : tokens = [] := List.head?_eq_none_iff.mp (Option.isNone_iff_eq_none.mp none)
    exact Within.pure (.done empty rfl rfl)
  · apply Within.bind
    apply (gives_collected last imported).mono
    rintro _ _ ⟨_, last₁, rfl, noted, notes, behind, rfl, annotated, rfl⟩
    apply Within.bind
    apply Within.get
    split
    · next ended =>
      obtain rfl := List.head?_eq_none_iff.mp ended
      apply Within.bind
      apply (gives_no_annotations last₁ imported).mono
      rintro _ _ ⟨_, last₂, rfl, rfl, rfl⟩
      cases annotated
      exact Within.pure (.done rfl rfl rfl)
    · next token now =>
      obtain ⟨rest, rfl⟩ := List.head?_eq_some_iff.mp now
      have further : ∀ {α : Type} {p : Parser α} {asDeclaration : α → Declaration},
          Gives p ⟨token :: rest, notes, warnings⟩ (fun a v =>
            PastDeclaration (asDeclaration a) notes (token :: rest) warnings v) →
          Within (p >>= fun a => parseDeclarations files fuel ((asDeclaration a).addTo schema))
            (View.state ⟨token :: rest, notes, warnings⟩ last₁ imported) (fun _ => True)
            fun tree s => Stepped files fuel schema (noted ++ token :: rest) warnings imported (tree, s) := by
        intro α p asDeclaration gives
        apply Within.bind
        apply (gives last₁ imported).mono
        rintro a _ ⟨_, last₂, rfl, written, behind, split, _, declares, rfl⟩
        refine within_of_run fun tree s' ran => ?_
        refine .declared ?_ (declares noted annotated) ran
        rw [split, List.append_assoc]
      split
      · next keyword => exact further (gives_type_declaration keyword)
      · next keyword => exact further (gives_error_declaration keyword)
      · next keyword => exact further (gives_function_declaration (by decide) keyword)
      · next keyword => exact further (gives_function_declaration (by decide) keyword)
      · next keyword => exact further (gives_function_declaration (by decide) keyword)
      · next keyword =>
        have everything : Closed files fun _ => True := fun _ _ _ _ _ => trivial
        apply Within.bind
        apply ((import_within everything fun _ _ => trivial).weaken fun _ _ => trivial).mono
        rintro _ s₂ ⟨directed, settled, waiting, kept, warned⟩
        obtain rfl : notes = [] := waiting
        cases annotated
        refine within_of_run fun tree s' later => ?_
        cases directed with
        | again ahead string known same =>
          obtain ⟨_, split, behind⟩ := tokens_of_ahead ((view_ahead ..).symm.trans ahead)
          obtain ⟨rfl, rfl⟩ := List.cons_eq_cons.mp split
          rw [state_of_ahead settled behind, kept, warned, same] at later
          exact .again rfl keyword string known later
        | opened ahead string new read front same =>
          obtain ⟨_, split, rfl⟩ := tokens_of_ahead ((view_ahead ..).symm.trans ahead)
          obtain ⟨rfl, rfl⟩ := List.cons_eq_cons.mp split
          exact .opened rfl keyword string new read front settled kept warned same later
      · exact Within.throw trivial

end Rounds

end ApiSchema.Parser

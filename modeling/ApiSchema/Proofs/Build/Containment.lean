import ApiSchema.Build
import ApiSchema.Proofs.Analysis.Following
import ApiSchema.Proofs.Token.Names
import ApiSchema.Proofs.Tree.Exactness

/-! What building makes of files. Whatever the files hold, it returns an analysed schema or a build
error, apart from four faults of sources that no handler waits for. Artifacts have none of them. -/

namespace ApiSchema

section Names

variable {c : Char}

theorem Text.mem_of_mem_split {separator : Char} {cs piece : List Char}
    (listed : piece ∈ split separator cs) (member : c ∈ piece) : c ∈ cs := by
  have joined : ∀ {pieces : List (List Char)}, piece ∈ pieces → c ∈ join separator pieces := by
    intro pieces listed
    induction pieces with
    | nil => cases listed
    | cons first rest ih =>
      by_cases more : rest = []
      · subst more
        rw [List.mem_singleton] at listed
        exact listed ▸ member
      · rw [join_cons separator first more]
        rcases List.mem_cons.mp listed with rfl | later
        · exact List.mem_append_left _ member
        · exact List.mem_append_right _ (List.mem_cons_of_mem _ (ih later))
  exact join_split separator cs ▸ joined listed

theorem mem_of_mem_intercalate {separator : List Char} {pieces : List (List Char)}
    (member : c ∈ separator.intercalate pieces) : c ∈ separator ∨ ∃ piece ∈ pieces, c ∈ piece := by
  induction pieces with
  | nil => simp [List.intercalate] at member
  | cons first rest ih =>
    cases rest with
    | nil => exact .inr ⟨first, List.mem_singleton_self .., by simpa [List.intercalate] using member⟩
    | cons second rest =>
      have split : c ∈ first ++ (separator ++ separator.intercalate (second :: rest)) := by
        simpa [List.intercalate] using member
      rcases List.mem_append.mp split with here | behind
      · exact .inr ⟨first, List.mem_cons_self .., here⟩
      · rcases List.mem_append.mp behind with between | further
        · exact .inl between
        · refine (ih further).imp_right ?_
          exact fun ⟨piece, listed, inside⟩ => ⟨piece, List.mem_cons_of_mem _ listed, inside⟩

theorem FileTree.has_null_iff {p : FilePath} :
    hasNull p = true ↔ ∃ s ∈ p.segments, '\x00' ∈ s.toList := by
  simp [hasNull]

theorem FileTree.has_null_of_text {p : FilePath} (null : hasNull (.ofText p.text) = true) :
    hasNull p = true := by
  obtain ⟨s, member, inside⟩ := has_null_iff.mp null
  have written : '\x00' ∈ p.text.toList := by
    obtain ⟨piece, listed, rfl⟩ := List.mem_map.mp (List.mem_filter.mp member).1
    rw [String.toList_ofList] at inside
    exact Text.mem_of_mem_split listed inside
  have segment : '\x00' ∈ ("/".intercalate p.segments).toList →
      ∃ s ∈ p.segments, '\x00' ∈ s.toList := by
    intro among
    rw [String.toList_intercalate] at among
    rcases mem_of_mem_intercalate among with slash | ⟨_, listed, inside⟩
    · exact absurd slash (by decide)
    · obtain ⟨s, member, rfl⟩ := List.mem_map.mp listed
      exact ⟨s, member, inside⟩
  unfold FilePath.text at written
  refine has_null_iff.mpr (segment ?_)
  split at written
  · rw [String.toList_append, String.toList_ofList] at written
    rcases List.mem_append.mp written with slash | among
    · exact absurd (List.eq_of_mem_replicate slash) (by decide)
    · exact among
  · split at written
    · exact absurd written (by decide)
    · exact written

end Names

namespace Schema

variable {s g : Schema}

theorem PlainFields.revised (plain : s.PlainFields) (revises : s.Revises g) : g.PlainFields := by
  intro id nested
  have same := (revises.field id).base
  cases base : (s.field id).type.base with
  | primitive kind =>
    rw [base] at same
    rw [same.primitive] at nested
    exact nested
  | reference name location =>
    rw [base] at same
    obtain ⟨_, other⟩ := same.reference
    rw [other] at nested
    exact nested
  | struct t => exact plain id (by rw [base]; trivial)
  | enum e => exact plain id (by rw [base]; trivial)

theorem PlainFields.expanded (plain : s.PlainFields) (expanded : s.expanded = .ok g) :
    g.PlainFields := by
  have start : s.addFatal.PlainFields := fun id => by rw [add_fatal_field]; exact plain id
  obtain ⟨n, declared, _, spread⟩ := declared_of_expanded expanded
  obtain ⟨_, named, _⟩ := named_of_declared declared
  have revises := (names_of_name_types start.grounded named).revises
  have kept : g.fields = n.fields := (expands_of_ok spread).inherits.fields
  -- Naming gives each field a type of its shape, and spreading leaves all of them alone.
  intro id
  have same : g.field id = n.field id := by rw [field, field, kept]
  rw [same]
  exact start.revised revises id

theorem document_not_endless (d : Document) : (ofDocument d).analyse ≠ .error .endless := by
  intro failed
  have grounded := (grounded_of_document d).add_fatal
  rw [analyse_eq] at failed
  cases outcome : (ofDocument d).expanded with
  | error other =>
    rw [outcome] at failed
    cases failed
    obtain ⟨_, equal⟩ := expanded_judges grounded _ outcome
    cases equal
  | ok g =>
    have completes := completed_cases (bound_of_expanded grounded outcome)
    rw [outcome] at failed
    change g.completed = _ at failed
    rw [failed] at completes
    rcases completes with ⟨_, equal⟩ | ⟨_, unending⟩
    · cases equal
    · have nested := (check_emptiness_endless_iff.mp unending).1
      exact nested ((plain_fields_of_document d).expanded outcome).grounded

end Schema

namespace Parser

variable {files : FileTree} {file source : String}

/-- The files that are read for a source, and what they hold: itself, and whatever a string in one of
them names. -/
inductive Reached (files : FileTree) (file source : String) : String → String → Prop where
  | source : Reached files file source file source
  | imported {importing text literal content} {path : Token}
    (reached : Reached files file source importing text)
    (met : .ok path ∈ TokenStream.ofSource importing text) (string : path.lexeme = .string literal)
    (read : files.readText (importPath files importing literal) = .ok content) :
    Reached files file source (importPath files importing literal).text content

def Met (files : FileTree) (file source : String) (x : Except LexerError Token) : Prop :=
  ∃ importing text, Reached files file source importing text ∧
    x ∈ TokenStream.ofSource importing text

theorem met_closed : Closed files (Met files file source) := by
  rintro path literal content ⟨importing, text, reached, met⟩ string read x member
  rw [TokenStream.of_source_located path met] at read member
  exact ⟨_, content, .imported reached met string read, member⟩

theorem parse_faults {e : ParseFailure}
    (named : file = "-" ∨ FileTree.hasNull (FilePath.ofText file) = false)
    (failed : SchemaTree.parse files file source = .error e) :
    Faults files (Met files file source) e := by
  have own : ∀ x ∈ TokenStream.ofSource file source, Met files file source x :=
    fun x member => ⟨file, source, .source, member⟩
  rw [parse_eq files file source named] at failed
  set s := start file (if file = "-" then [] else [files.resolve (FilePath.ofText file)])
    (TokenStream.ofSource file source)
  have run : Within (whole files (source.length + files.totalSize + 1)) s
      (Faults files (Met files file source)) fun _ _ => True := by
    apply Within.bind
    apply ((read_ahead_within s).weaken fun _ blames => blames.faults own).mono
    rintro _ s' ⟨ahead, settled, _⟩
    apply Within.bind
    refine (declarations_within met_closed _ settled (fun x member => own x ?_)
      (enough_before files ahead)).mono ?_
    · rw [ahead] at member
      exact member
    · exact fun _ _ _ => Within.bind (Within.get (Within.pure trivial))
  rw [StateT.run'_eq] at failed
  cases ran : (whole files (source.length + files.totalSize + 1)).run s with
  | error other =>
    rw [ran] at failed
    cases failed
    exact run.of_error ran
  | ok r =>
    rw [ran] at failed
    cases failed

theorem annotation_too_long {text : String} (long : annotationOf text = .ok none) :
    String.ofList (headAndBody text.toList).1 = "statusCode" ∧
      (headAndBody text.toList).2.all isDigit = true ∧ 4300 < (headAndBody text.toList).2.length := by
  unfold annotationOf at long
  dsimp only at long
  split at long
  · cases long
  · split at long <;> cases long
  · cases long
  · split at long <;> cases long
  · split at long <;> cases long
  · next written =>
    split at long
    · cases long
    · next digits =>
      split at long
      · next exceeds =>
        rw [Bool.or_eq_true, not_or] at digits
        exact ⟨written, by simpa using digits.2, of_decide_eq_true exceeds⟩
      · cases long
  · cases long

end Parser

namespace Build

variable {tree : FileTree} {path : FilePath}

/-- No text can be read there, and not because the system refuses: its name holds a null character, or
the bytes of the file are not text. -/
def Garbled (tree : FileTree) (p : FilePath) : Prop :=
  FileTree.hasNull p = true ∨
    ∃ content, tree.readBytes p = .ok content ∧ String.fromUTF8? ⟨content.toArray⟩ = none

theorem garbled_iff {p : FilePath} :
    Garbled tree p ↔ ∃ e, tree.readText p = .error e ∧ ∀ fault, e ≠ .system fault := by
  unfold Garbled FileTree.readText
  cases FileTree.hasNull p with
  | true => simp
  | false =>
    cases tree.readBytes p with
    | error fault => simp
    | ok content => cases decoded : String.fromUTF8? ⟨content.toArray⟩ <;> simp [decoded]

/-- What is not told as a build error: a file that is no text, a number with too many digits, or a type
that spreads have nested in itself. -/
inductive Escapes (tree : FileTree) (path : FilePath) : BuildFailure → Prop where
  | entry (garbled : Garbled tree path) : Escapes tree path .notText
  | imported {source importing text literal} {token : Token} (read : tree.readText path = .ok source)
    (reached : Parser.Reached tree path.text source importing text)
    (met : .ok token ∈ TokenStream.ofSource importing text) (string : token.lexeme = .string literal)
    (garbled : Garbled tree (Parser.importPath tree importing literal)) : Escapes tree path .notText
  | number {source importing text note location} (read : tree.readText path = .ok source)
    (reached : Parser.Reached tree path.text source importing text)
    (met : .ok ⟨.note note, location⟩ ∈ TokenStream.ofSource importing text)
    (code : String.ofList (Parser.headAndBody note.toList).1 = "statusCode")
    (long : 4300 < (Parser.headAndBody note.toList).2.length) : Escapes tree path .numberTooLong
  | endless {source parsed g} (read : tree.readText path = .ok source)
    (parses : SchemaTree.parse tree path.text source = .ok parsed)
    (expanded : (Schema.ofTree parsed).expanded = .ok g) (nested : ¬ g.Grounded)
    (filled : g.checkNotEmpty g.walk.visits = .ok ()) : Escapes tree path .endless

theorem compile_of_read {source : String} (read : tree.readText path = .ok source) :
    compile tree path = ((SchemaTree.parse tree path.text source).mapError (unparsed path.text)).bind
      fun parsed => (Schema.ofTree parsed).analyse.mapError (unanalysed path.text) := by
  unfold compile
  rw [read]
  rfl

theorem compile_failure {failure : BuildFailure} (failed : compile tree path = .error failure) :
    (∃ e, failure = .error e) ∨ Escapes tree path failure := by
  cases read : tree.readText path with
  | error fault =>
    unfold compile at failed
    rw [read] at failed
    cases failed
    cases fault with
    | system e => exact .inl ⟨_, rfl⟩
    | nullCharacter => exact .inr (.entry (garbled_iff.mpr ⟨_, read, nofun⟩))
    | notText => exact .inr (.entry (garbled_iff.mpr ⟨_, read, nofun⟩))
  | ok source =>
    rw [compile_of_read read] at failed
    have named : path.text = "-" ∨ FileTree.hasNull (.ofText path.text) = false := by
      refine .inr (Bool.eq_false_iff.mpr fun null => ?_)
      -- The parser is given the text of the path, and makes a path of it again.
      have garbled : Garbled tree path := .inl (FileTree.has_null_of_text null)
      obtain ⟨e, unread, _⟩ := garbled_iff.mp garbled
      rw [read] at unread
      cases unread
    cases parses : SchemaTree.parse tree path.text source with
    | error e =>
      rw [parses] at failed
      cases failed
      cases Parser.parse_faults named parses with
      | lexer => exact .inl ⟨_, rfl⟩
      | grammar => exact .inl ⟨_, rfl⟩
      | number met long =>
        obtain ⟨importing, text, reached, met⟩ := met
        obtain ⟨code, _, many⟩ := Parser.annotation_too_long long
        exact .inr (.number read reached met code many)
      | @notText token literal e met string unread other =>
        obtain ⟨importing, text, reached, met⟩ := met
        rw [TokenStream.of_source_located token met] at unread
        exact .inr (.imported read reached met string (garbled_iff.mpr ⟨e, unread, other⟩))
    | ok parsed =>
      rw [parses] at failed
      change (Schema.ofTree parsed).analyse.mapError (unanalysed path.text) = _ at failed
      obtain ⟨_, refused, endless, _⟩ := Schema.analysis_outcome parsed
      cases outcome : (Schema.ofTree parsed).analyse with
      | ok s =>
        rw [outcome] at failed
        cases failed
      | error e =>
        rw [outcome] at failed
        cases failed
        rcases refused e outcome with ⟨fault, rfl⟩ | rfl
        · exact .inl ⟨_, rfl⟩
        · obtain ⟨g, expanded, nested, filled⟩ := endless.mp outcome
          exact .inr (.endless read parses expanded nested filled)

theorem compile_analysed {s : Schema} (compiled : compile tree path = .ok s) : s.Analysed := by
  cases read : tree.readText path with
  | error fault =>
    unfold compile at compiled
    rw [read] at compiled
    cases compiled
  | ok source =>
    rw [compile_of_read read] at compiled
    cases parses : SchemaTree.parse tree path.text source with
    | error e =>
      rw [parses] at compiled
      cases compiled
    | ok parsed =>
      rw [parses] at compiled
      change (Schema.ofTree parsed).analyse.mapError (unanalysed path.text) = _ at compiled
      cases outcome : (Schema.ofTree parsed).analyse with
      | error e =>
        rw [outcome] at compiled
        cases compiled
      | ok final =>
        rw [outcome] at compiled
        cases compiled
        exact .source parses outcome

theorem escape_iff : (Garbled tree path → compile tree path = .error .notText) ∧
    (compile tree path = .error .endless ↔ Escapes tree path .endless) := by
  refine ⟨fun garbled => ?_, fun failed => ?_, fun escapes => ?_⟩
  · obtain ⟨e, unread, other⟩ := garbled_iff.mp garbled
    unfold compile
    rw [unread]
    cases e with
    | system fault => exact absurd rfl (other fault)
    | nullCharacter => rfl
    | notText => rfl
  · rcases compile_failure failed with ⟨e, same⟩ | escapes
    · cases same
    · exact escapes
  · cases escapes with
    | endless read parses expanded nested filled =>
      have outcome := (Schema.analysis_outcome _).2.2.1.mpr ⟨_, expanded, nested, filled⟩
      rw [compile_of_read read, parses]
      change (Schema.ofTree _).analyse.mapError (unanalysed path.text) = _
      rw [outcome]
      rfl

theorem load_artifact (artifact : path.hasEnding Artifact.ending = true) :
    (∃ s, load tree path = .ok s ∧ s.Analysed) ∨ ∃ e, load tree path = .error (.error e) := by
  unfold load
  rw [if_pos artifact]
  split
  · next text read =>
    unfold Artifact.read Artifact.ofDocument?
    cases Document.ofText? text with
    | none => exact .inr ⟨_, rfl⟩
    | some d =>
      dsimp only
      cases outcome : (Schema.ofDocument d).analyse with
      | ok final => exact .inl ⟨final, rfl, .document outcome⟩
      | error e =>
        cases e with
        | semantic fault => exact .inr ⟨_, rfl⟩
        | unresolved fault => exact .inr ⟨_, rfl⟩
        | endless => exact absurd outcome (Schema.document_not_endless d)
  · exact .inr ⟨_, rfl⟩
  · exact .inr ⟨_, rfl⟩

/-- From any files and paths an analysed schema is built, or a build error is told, or one of four
faults escapes. Artifacts are loaded without any of these. -/
theorem building_outcome (tree : FileTree) (path : FilePath) :
    (∀ s, compile tree path = .ok s → s.Analysed) ∧
    (∀ failure, compile tree path = .error failure →
      (∃ e, failure = .error e) ∨ Escapes tree path failure) ∧
    (Garbled tree path → compile tree path = .error .notText) ∧
    (compile tree path = .error .endless ↔ Escapes tree path .endless) ∧
    (path.hasEnding Artifact.ending = true →
      (∃ s, load tree path = .ok s ∧ s.Analysed) ∨ ∃ e, load tree path = .error (.error e)) ∧
    (path.hasEnding Artifact.ending = false → load tree path = compile tree path) := by
  refine ⟨fun _ => compile_analysed, fun _ => compile_failure, escape_iff.1, escape_iff.2,
    load_artifact, fun source => ?_⟩
  unfold load
  rw [if_neg (by rw [source]; exact Bool.false_ne_true)]

def bank : FileTree where
  workingDirectory := []
  entries := [(["bank.sdkgen"], .file "import \"money\"\nfn pay(sum: Sum)".toUTF8.data.toList),
    (["money.sdkgen"], .file "type Sum \x7b cents: int \x7d".toUTF8.data.toList),
    (["bank.sdkgen.json"], .file [0xff])]

theorem bank_outcome : (∃ s, compile bank (.ofText "bank.sdkgen") = .ok s ∧ s.Analysed) ∧
    ∃ e, load bank (.ofText "bank.sdkgen.json") = .error (.error e) := by
  have compiles : (compile bank (.ofText "bank.sdkgen")).isOk = true := by decide +kernel
  have refused : (load bank (.ofText "bank.sdkgen.json")).isOk = false := by decide +kernel
  obtain ⟨s, compiled⟩ := exists_of_is_ok compiles
  obtain ⟨analysed, _⟩ := building_outcome bank (.ofText "bank.sdkgen")
  refine ⟨⟨s, compiled, analysed s compiled⟩, ?_⟩
  obtain ⟨_, _, _, _, artifact, _⟩ := building_outcome bank (.ofText "bank.sdkgen.json")
  rcases artifact (by decide +kernel) with ⟨s, loaded, _⟩ | told
  · rw [loaded] at refused
    cases refused
  · exact told

/-- A byte that is no text in a source, or in a file that it imports, is no build error. -/
theorem bytes_escape : compile ⟨[], [(["a.sdkgen"], .file [0xff])]⟩ (.ofText "a.sdkgen") =
      .error .notText ∧
    load ⟨[], [(["a.sdkgen"], .file [0xff]), (["b.sdkgen"], .file "import \"a\"".toUTF8.data.toList)]⟩
      (.ofText "b.sdkgen") = .error .notText :=
  ⟨by decide +kernel, by decide +kernel⟩

end Build

end ApiSchema

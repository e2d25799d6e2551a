import ApiSchema.Proofs.Tree.Splicing

/-! The ends of files. A declaration takes its tokens from one file, with its annotations, as long as
every file holds whole declarations and directives. A file that ends within one, or in an annotation,
goes on in the file that imports it. Only the end of a source itself is respected. -/

namespace ApiSchema.Grammar

section Ends

variable {marks : Nat → Prop} {ts ts' : List Token} {t : Token}

def Finishes (ts : List Token) : Prop :=
  ∀ t, ts.getLast? = some t → ∀ text, t.lexeme ≠ .note text

theorem finishes_nil : Finishes [] := nofun

theorem Finishes.append (first : Finishes ts) (second : Finishes ts') : Finishes (ts ++ ts') := by
  intro t last
  rw [List.getLast?_append] at last
  rcases Option.or_eq_some_iff.mp last with behind | ⟨_, before⟩
  · exact second t behind
  · exact first t before

theorem Finishes.behind (finishes : Finishes (t :: ts)) (before : List Token) :
    Finishes (before ++ t :: ts) := by
  intro last met
  rw [List.getLast?_append_of_ne_nil _ (List.cons_ne_nil t ts)] at met
  exact finishes last met

theorem Finishes.cons (finishes : Finishes ts) (other : ∀ text, t.lexeme ≠ .note text) :
    Finishes (t :: ts) := by
  have single : Finishes [t] := fun _ last => by cases last; exact other
  exact single.append finishes

theorem finishes_mark {m : Mark} (finishes : Finishes ts) (written : t.lexeme = .mark m) :
    Finishes (t :: ts) :=
  finishes.cons fun text note => by cases written.symm.trans note

theorem finishes_name {name : String} (finishes : Finishes ts) (named : t.lexeme.name? = some name) :
    Finishes (t :: ts) :=
  finishes.cons fun text note => by rw [note] at named; cases named

theorem Maybe.finishes {m : Mark} (maybe : Maybe m ts) : Finishes ts := by
  cases maybe with
  | absent => exact finishes_nil
  | present written => exact finishes_mark finishes_nil written

theorem Marks.finishes {n : Nat} (marked : Marks n ts) : Finishes ts := by
  induction marked with
  | none => exact finishes_nil
  | secret written named _ ih => exact finishes_mark (finishes_name ih named) written

theorem Spreads.finishes {m : MemberTree} (spreads : Spreads m ts) : Finishes ts := by
  cases spreads with
  | named written named => exact finishes_mark (finishes_name finishes_nil named) written

theorem Labels.finishes {text : String} (labels : Labels t text) (finishes : Finishes ts) :
    Finishes (t :: ts) := by
  rcases labels with written | named
  · exact finishes.cons fun text note => by cases written.symm.trans note
  · exact finishes_name finishes named

theorem Derives.finishes {phrase : Phrase} (derived : Derives marks phrase ts) : Finishes ts := by
  induction derived with
  | primitive written =>
    exact finishes_nil.cons fun text note => by cases written.symm.trans note
  | reference written =>
    exact finishes_nil.cons fun text note => by cases written.symm.trans note
  | literal _ ih => exact ih
  | enum keyword opens _ ih =>
    exact (finishes_mark ih opens).cons fun text note => by cases keyword.symm.trans note
  | parens opens _ closes ih =>
    exact finishes_mark (ih.append (finishes_mark finishes_nil closes)) opens
  | optional _ written ih => exact ih.append (finishes_mark finishes_nil written)
  | array _ written ih => exact ih.append (finishes_mark finishes_nil written)
  | struct opens _ _ ih => exact finishes_mark ih opens
  | closed closes => exact finishes_mark finishes_nil closes
  | spread spread separated _ ih => exact spread.finishes.append (separated.finishes.append ih)
  | member annotated field separated _ written others =>
    -- Annotations stand in front here, so the field behind them has to have a token.
    rcases field.head with ⟨⟨⟩⟩ | ⟨t, rest, rfl, _⟩
    exact (written.append (separated.finishes.append others)).behind _
  | field named separated _ secret _ ih =>
    exact finishes_name (finishes_mark (ih.append secret.finishes) separated) named
  | complete closes => exact finishes_mark finishes_nil closes
  | tag annotated labels separated _ ih =>
    exact (labels.finishes (separated.finishes.append ih)).behind _
  | tagged annotated labels _ separated _ data others =>
    exact (labels.finishes (data.append (separated.finishes.append others))).behind _
  | inherited spread => exact spread.finishes
  | own _ _ ih => exact ih
  | none => exact finishes_nil
  | last _ ih => exact ih
  | more _ separated _ first others => exact first.append (finishes_mark others separated)

theorem Announced.finishes {fallback : Location} {type : TypeTree}
    (announced : Announced marks fallback type ts) : Finishes ts := by
  cases announced with
  | silent => exact finishes_nil
  | colon written type => exact finishes_mark type.finishes written

theorem Payload.finishes {fallback : Location} {type : TypeTree}
    (data : Payload marks fallback type ts) : Finishes ts := by
  cases data with
  | announced announced => exact announced.finishes
  | bare type => exact type.finishes

theorem Declares.finishes {d : Declaration} (declares : Declares marks d ts) : Finishes ts := by
  have keyword : ∀ {word : Token} {k ts}, word.lexeme = .keyword k → Finishes ts →
      Finishes (word :: ts) := fun written finishes =>
    finishes.cons fun text note => by cases written.symm.trans note
  cases declares with
  | type _ written named _ defined type =>
    exact (keyword written (finishes_name (defined.finishes.append type.finishes) named)).behind _
  | error _ written named _ data =>
    exact (keyword written (finishes_name data.finishes named)).behind _
  | function _ written named opens arguments _ closes _ returns =>
    obtain ⟨_, _, written⟩ := written
    have inside := arguments.finishes.append (finishes_mark returns.finishes closes)
    exact (keyword written (finishes_name (finishes_mark inside opens) named)).behind _

end Ends

/-- The tokens are whole declarations and whole import directives. -/
inductive Whole : List Token → Prop where
  | nil : Whole []
  | declaration {d written rest} (declares : Declares anyNumber d written) (others : Whole rest) :
    Whole (written ++ rest)
  | directive {word path rest text} (keyword : word.lexeme = .keyword .importing)
    (string : path.lexeme = .string text) (others : Whole rest) : Whole (word :: path :: rest)

theorem finishes_directive {word path : Token} {rest : List Token} {text : String}
    (keyword : word.lexeme = .keyword .importing) (string : path.lexeme = .string text)
    (behind : Finishes rest) : Finishes (word :: path :: rest) :=
  (behind.cons fun _ note => by cases string.symm.trans note).cons
    fun _ note => by cases keyword.symm.trans note

theorem Whole.finishes {ts : List Token} (whole : Whole ts) : Finishes ts := by
  induction whole with
  | nil => exact finishes_nil
  | declaration declares _ ih => exact declares.finishes.append ih
  | directive keyword string _ ih => exact finishes_directive keyword string ih

/-- Tokens ahead in which each declaration and each directive stands in one file. -/
inductive Apart : List Sourced → Prop where
  | nil : Apart []
  | declaration {origin d written rest} (declares : Declares anyNumber d written) (others : Apart rest) :
    Apart (tokensOf origin written ++ rest)
  | directive {origin word path rest text} (keyword : word.lexeme = .keyword .importing)
    (string : path.lexeme = .string text) (others : Apart rest) :
    Apart (⟨origin, word⟩ :: ⟨origin, path⟩ :: rest)

variable {files : FileTree} {imported : List FilePath} {stream : List Sourced} {ps : List Piece}
  {origin : Option FilePath}

theorem Whole.apart {own : List Token} {below : List Sourced} (whole : Whole own) (apart : Apart below) :
    Apart (tokensOf origin own ++ below) := by
  induction whole with
  | nil => exact apart
  | declaration declares _ ih =>
    rw [tokens_of_append, List.append_assoc]
    exact .declaration declares ih
  | directive keyword string _ ih => exact .directive keyword string ih

theorem Apart.begins (apart : Apart stream) : Parser.Begins (stream.map (·.token)) := by
  cases apart with
  | nil => exact nofun
  | declaration declares =>
    rw [List.map_append, map_tokens_of]
    exact Parser.begins_of_declares declares
  | directive keyword => exact Parser.begins_of_keyword .nil (by decide) keyword

theorem Apart.front {d : Declaration} {written rest : List Sourced} (apart : Apart (written ++ rest))
    (declares : Declares anyNumber d (written.map (·.token)))
    (begins : Parser.Begins (rest.map (·.token))) :
    (∃ origin, ∀ x ∈ written, x.origin = origin) ∧ Apart rest := by
  generalize split : written ++ rest = stream at apart
  cases apart with
  | nil =>
    obtain ⟨rfl, _⟩ := List.append_eq_nil_iff.mp split
    exact absurd declares.two_le (by simp)
  | @declaration origin d' own others declares' apart =>
    have tokens := congrArg (List.map (·.token)) split
    rw [List.map_append, List.map_append] at tokens
    have whole : Declares anyNumber d' ((tokensOf origin own).map (·.token)) := by
      rwa [map_tokens_of]
    have front := Parser.declared_front declares begins whole apart.begins tokens
    have long : written.length = (tokensOf origin own).length := by
      simpa [tokensOf] using congrArg List.length front
    obtain ⟨rfl, rfl⟩ := List.append_inj split long
    exact ⟨⟨origin, fun x member => origin_of_mem member⟩, apart⟩
  | directive keyword => exact absurd keyword (written_not_directive declares split)

theorem Apart.directive_front {word path : Sourced} {rest : List Sourced}
    (apart : Apart (word :: path :: rest)) (keyword : word.token.lexeme = .keyword .importing) :
    (∃ origin, ∀ x ∈ [word, path], x.origin = origin) ∧ Apart rest := by
  generalize split : word :: path :: rest = stream at apart
  cases apart with
  | nil => cases split
  | @declaration origin d own others declares =>
    have whole : Declares anyNumber d ((tokensOf origin own).map (·.token)) := by
      rwa [map_tokens_of]
    exact absurd keyword (written_not_directive whole split.symm)
  | @directive origin word path rest text _ _ apart =>
    cases split
    refine ⟨⟨origin, fun x member => ?_⟩, apart⟩
    have own : x ∈ tokensOf origin [word, path] := member
    exact origin_of_mem own

theorem InPieces.one_source (pieces : InPieces files imported stream ps) (apart : Apart stream)
    (whole : ∀ e ∈ openedBy ps, Whole e.2) : ∀ p ∈ ps, p.OneSource := by
  induction pieces with
  | done => exact fun _ => nofun
  | declaration declares others ih =>
    obtain ⟨one, behind⟩ := apart.front declares others.begins
    exact List.forall_mem_cons.mpr ⟨one, ih behind whole⟩
  | opening directs new holds others ih =>
    obtain ⟨one, behind⟩ := apart.directive_front directs.keyword
    obtain ⟨held, further⟩ := List.forall_mem_cons.mp whole
    exact List.forall_mem_cons.mpr ⟨one, ih (held.apart behind) further⟩
  | repetition directs known others ih =>
    obtain ⟨one, behind⟩ := apart.directive_front directs.keyword
    exact List.forall_mem_cons.mpr ⟨one, ih behind whole⟩

theorem Piece.OneSource.whole {p : Piece} {rest : List Token} (one : p.OneSource)
    (taken : Whole (p.taken.map (·.token) ++ rest)) (without : Whole rest) :
    Whole ((readFor origin p.taken).map (·.token) ++ rest) := by
  obtain ⟨shared, same⟩ := one
  by_cases equal : shared = origin
  · have all : readFor origin p.taken = p.taken :=
      List.filter_eq_self.mpr fun x member => by simp [same x member, equal]
    rwa [all]
  · rw [read_for_absent fun x member => same x member ▸ equal]
    exact without

theorem InPieces.whole (pieces : InPieces files imported stream ps) (one : ∀ p ∈ ps, p.OneSource)
    (origin : Option FilePath) : Whole ((readFor origin (consumed ps)).map (·.token)) := by
  induction pieces with
  | done => exact .nil
  | declaration declares _ ih =>
    obtain ⟨first, others⟩ := List.forall_mem_cons.mp one
    rw [consumed_cons, read_for_append, List.map_append]
    exact first.whole (.declaration declares (ih others)) (ih others)
  | opening directs _ _ _ ih =>
    obtain ⟨first, others⟩ := List.forall_mem_cons.mp one
    obtain ⟨text, string, _⟩ := directs.path
    rw [consumed_cons, read_for_append, List.map_append]
    exact first.whole (.directive directs.keyword string (ih others)) (ih others)
  | repetition directs _ _ ih =>
    obtain ⟨first, others⟩ := List.forall_mem_cons.mp one
    obtain ⟨text, string, _⟩ := directs.path
    rw [consumed_cons, read_for_append, List.map_append]
    exact first.whole (.directive directs.keyword string (ih others)) (ih others)

theorem InPieces.finishes (pieces : InPieces files imported stream ps) :
    Finishes (stream.map (·.token)) := by
  induction pieces with
  | done => exact finishes_nil
  | declaration declares _ ih =>
    rw [List.map_append]
    exact declares.finishes.append ih
  | @opening _ target content rest ps word path directs _ _ _ ih =>
    obtain ⟨text, string, _⟩ := directs.path
    -- What is behind a directive comes behind the file that it opens, and has the same last token.
    refine finishes_directive directs.keyword string fun t last => ih t ?_
    rw [List.map_append, List.getLast?_append, last]
    rfl
  | repetition directs _ _ ih =>
    obtain ⟨text, string, _⟩ := directs.path
    exact finishes_directive directs.keyword string ih

variable {file source : String} {tree : SchemaTree}

/-- A source that is parsed does not end in an annotation. Each of its declarations, with all its
annotations, and each directive is taken from one file, exactly if the source and all files that are
opened hold whole declarations and directives. A file that ends in an annotation does not. -/
theorem boundaries_respected (parsed : SchemaTree.parse files file source = .ok tree) : ∃ ts ps,
    (TokenStream.ofSource file source).tokens = .ok ts ∧
    InPieces files (entry files file) (tokensOf none ts) ps ∧ tree = treeOf (declarationsOf ps) ∧
    (∀ x ∈ consumed ps, x.token.location.file = fileOf file x) ∧ Finishes ts ∧
    ((∀ p ∈ ps, p.OneSource) ↔ Whole ts ∧ ∀ e ∈ openedBy ps, Whole e.2) ∧
    ∀ e ∈ openedBy ps, ¬ Finishes e.2 → ¬ Whole e.2 ∧ ∃ p ∈ ps, ¬ p.OneSource := by
  obtain ⟨_, ts, ps, lexed, pieces, rfl⟩ := parse_iff_pieces.mp parsed
  have finishes := pieces.finishes
  rw [map_tokens_of] at finishes
  have conserves := pieces.conserves
  have apart : Whole ts → Apart (tokensOf none ts) := fun whole => by
    have bottom : Apart (tokensOf none ts ++ []) := whole.apart .nil
    rwa [List.append_nil] at bottom
  have respected : (∀ p ∈ ps, p.OneSource) ↔ Whole ts ∧ ∀ e ∈ openedBy ps, Whole e.2 := by
    refine ⟨fun one => ⟨?_, fun e opened => ?_⟩, fun ⟨own, held⟩ => pieces.one_source (apart own) held⟩
    · have whole := pieces.whole one none
      rwa [conserves.source, map_tokens_of] at whole
    · have whole := pieces.whole one (some e.1)
      rwa [conserves.opened e opened, map_tokens_of] at whole
  refine ⟨ts, ps, lexed, pieces, rfl, located lexed pieces, finishes, respected, fun e opened unfinished => ?_⟩
  have cut : ¬ Whole e.2 := fun whole => unfinished whole.finishes
  refine ⟨cut, ?_⟩
  by_contra all
  push Not at all
  exact cut ((respected.mp all).2 e opened)

theorem InPieces.opens {word path : Sourced} {rest : List Sourced} {target : FilePath}
    {content : List Token} (pieces : InPieces files imported (word :: path :: rest) ps)
    (directs : Directs files word.token path.token target) (new : target ∉ imported)
    (holds : Holds files target content) : (target, content) ∈ openedBy ps := by
  generalize split : word :: path :: rest = stream at pieces
  cases pieces with
  | done => cases split
  | declaration declares =>
    exact absurd directs.keyword (written_not_directive declares split.symm)
  | opening directs' _ holds' =>
    cases split
    obtain rfl := directs.unique directs'
    obtain rfl := holds.unique holds'
    exact List.mem_cons_self ..
  | repetition directs' known =>
    cases split
    exact absurd (directs.unique directs' ▸ known) new

def lentFiles : FileTree where
  workingDirectory := []
  entries := [(["c.sdkgen"], .file "type A int\n@description of c".toUTF8.data.toList)]

def lent : String := "import \"c\"\nfn f(a: A)"

theorem lent_crosses : ∃ tree ps, SchemaTree.parse lentFiles "main.sdkgen" lent = .ok tree ∧
    tree = treeOf (declarationsOf ps) ∧ ∃ p ∈ ps, ¬ p.OneSource := by
  have parses : (SchemaTree.parse lentFiles "main.sdkgen" lent).isOk = true := by
    simp only [SchemaTree.parse_by_chars]
    decide +kernel
  have front : (TokenStream.ofSource "main.sdkgen" lent).tokens.toOption.map (·.take 2) =
      some [⟨.keyword .importing, ⟨"main.sdkgen", ⟨1, 1⟩⟩⟩, ⟨.string "c", ⟨"main.sdkgen", ⟨1, 8⟩⟩⟩] := by
    simp only [TokenStream.of_source_by_chars]
    decide +kernel
  have held : (lentFiles.readText (Parser.importPath lentFiles "main.sdkgen" "c")).toOption =
      some "type A int\n@description of c" := by
    decide +kernel
  have ending : (TokenStream.ofSource (Parser.importPath lentFiles "main.sdkgen" "c").text
      "type A int\n@description of c").tokens.toOption.map (·.getLast?) =
        some (some ⟨.note "description of c", ⟨"/c.sdkgen", ⟨2, 1⟩⟩⟩) := by
    simp only [TokenStream.of_source_by_chars]
    decide +kernel
  obtain ⟨tree, parsed⟩ := exists_of_is_ok parses
  obtain ⟨ts, ps, lexed, pieces, same, _, _, _, crosses⟩ := boundaries_respected parsed
  obtain ⟨content, lexed', last⟩ := Option.map_eq_some_iff.mp ending
  rw [lexed] at front
  have taken : ts.take 2 = _ := Option.some.inj front
  rw [← List.take_append_drop 2 ts, taken] at pieces
  have opened := pieces.opens ⟨rfl, "c", rfl, rfl⟩ (by decide +kernel)
    ⟨_, ok_of_to_option held, ok_of_to_option lexed'⟩
  exact ⟨tree, ps, parsed, same, (crosses _ opened fun finishes => finishes _ last _ rfl).2⟩

/-- The annotation describes the function of the importing file, while the imported file alone is an
error for its sake. -/
theorem annotation_crosses : ∃ tree, SchemaTree.parse lentFiles "main.sdkgen" lent = .ok tree ∧
    tree.functions.map (fun f => (f.name, f.notes)) =
      [("f", [⟨.description "of c", ⟨"/c.sdkgen", ⟨2, 1⟩⟩⟩])] ∧
    SchemaTree.parse lentFiles "c.sdkgen" "type A int\n@description of c" =
      .error (.grammar ⟨.misplacedNote, ⟨"c.sdkgen", ⟨2, 1⟩⟩⟩) := by
  have compiles : ((SchemaTree.parse lentFiles "main.sdkgen" lent).toOption.map fun tree =>
      decide (tree.functions.map (fun f => (f.name, f.notes)) =
        [("f", [⟨.description "of c", ⟨"/c.sdkgen", ⟨2, 1⟩⟩⟩])])) = some true := by
    simp only [SchemaTree.parse_by_chars]
    decide +kernel
  have refused : (match SchemaTree.parse lentFiles "c.sdkgen" "type A int\n@description of c" with
      | .error e => some e
      | .ok _ => none) = some (.grammar ⟨.misplacedNote, ⟨"c.sdkgen", ⟨2, 1⟩⟩⟩) := by
    simp only [SchemaTree.parse_by_chars]
    decide +kernel
  obtain ⟨tree, parsed, notes⟩ := Option.map_eq_some_iff.mp compiles
  refine ⟨tree, ok_of_to_option parsed, of_decide_eq_true notes, ?_⟩
  split at refused
  · next e failed => rw [failed, Option.some.inj refused]
  · cases refused

end ApiSchema.Grammar

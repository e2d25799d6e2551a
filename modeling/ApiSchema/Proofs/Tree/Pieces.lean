import ApiSchema.Proofs.Tree.Exactness

/-! A source is read in pieces, declarations and import directives, where the tokens of an imported
file come first once it is opened. What the parser returns is the tree of the declarations among them,
and tokens can be read in only one way. -/

namespace ApiSchema

/-- A token and the import that it was read for. The tokens of the source itself were read for none. -/
structure Sourced where
  origin : Option FilePath
  token : Token

namespace Grammar

def tokensOf (origin : Option FilePath) (ts : List Token) : List Sourced := ts.map (Sourced.mk origin)

@[simp] theorem tokens_of_nil (origin : Option FilePath) : tokensOf origin [] = [] := rfl

@[simp] theorem tokens_of_cons (origin : Option FilePath) (t : Token) (ts : List Token) :
    tokensOf origin (t :: ts) = ⟨origin, t⟩ :: tokensOf origin ts := rfl

@[simp] theorem tokens_of_append (origin : Option FilePath) (ts ts' : List Token) :
    tokensOf origin (ts ++ ts') = tokensOf origin ts ++ tokensOf origin ts' := List.map_append

@[simp] theorem map_tokens_of (origin : Option FilePath) (ts : List Token) :
    (tokensOf origin ts).map (·.token) = ts := by
  simp [tokensOf, Function.comp_def]

theorem origin_of_mem {origin : Option FilePath} {ts : List Token} {x : Sourced}
    (member : x ∈ tokensOf origin ts) : x.origin = origin := by
  obtain ⟨_, _, rfl⟩ := List.mem_map.mp member
  rfl

/-- What is taken at once. -/
inductive Piece where
  | declaration (d : Declaration) (taken : List Sourced)
  /-- A directive that opens its file, in which these tokens are. -/
  | opening (target : FilePath) (content : List Token) (word path : Sourced)
  /-- A directive for a file that was imported before. -/
  | repetition (word path : Sourced)

namespace Piece

def taken : Piece → List Sourced
  | .declaration _ taken => taken
  | .opening _ _ word path | .repetition word path => [word, path]

def declaration? : Piece → Option Declaration
  | .declaration d _ => some d
  | _ => none

def opened? : Piece → Option (FilePath × List Token)
  | .opening target content _ _ => some (target, content)
  | _ => none

end Piece

def declarationsOf (ps : List Piece) : List Declaration := ps.filterMap Piece.declaration?

def openedBy (ps : List Piece) : List (FilePath × List Token) := ps.filterMap Piece.opened?

def consumed (ps : List Piece) : List Sourced := ps.flatMap Piece.taken

/-- The two tokens are an import directive for the file. -/
structure Directs (files : FileTree) (word path : Token) (target : FilePath) : Prop where
  keyword : word.lexeme = .keyword .importing
  path : ∃ text, path.lexeme = .string text ∧
    target = Parser.importPath files path.location.file text

/-- The file can be read, and these are its tokens. -/
def Holds (files : FileTree) (target : FilePath) (ts : List Token) : Prop :=
  ∃ content, files.readText target = .ok content ∧
    (TokenStream.ofSource target.text content).tokens = .ok ts

/-- With some files imported, the tokens ahead are read in these pieces. -/
inductive InPieces (files : FileTree) : List FilePath → List Sourced → List Piece → Prop where
  | done {imported} : InPieces files imported [] []
  | declaration {imported d written rest ps}
    (declares : Declares anyNumber d (written.map (·.token))) (others : InPieces files imported rest ps) :
    InPieces files imported (written ++ rest) (.declaration d written :: ps)
  | opening {imported target content rest ps} {word path : Sourced}
    (directs : Directs files word.token path.token target) (new : target ∉ imported)
    (holds : Holds files target content)
    (others : InPieces files (target :: imported) (tokensOf (some target) content ++ rest) ps) :
    InPieces files imported (word :: path :: rest) (.opening target content word path :: ps)
  | repetition {imported target rest ps} {word path : Sourced}
    (directs : Directs files word.token path.token target) (known : target ∈ imported)
    (others : InPieces files imported rest ps) :
    InPieces files imported (word :: path :: rest) (.repetition word path :: ps)

variable {files : FileTree} {imported : List FilePath} {stream : List Sourced} {ps : List Piece}

theorem InPieces.begins (reads : InPieces files imported stream ps) :
    Parser.Begins (stream.map (·.token)) := by
  have directive : ∀ {word path : Token} {target rest}, Directs files word path target →
      Parser.Begins (word :: path :: rest) := fun directs =>
    Parser.begins_of_keyword .nil (by decide) directs.keyword
  cases reads with
  | done => exact nofun
  | declaration declares =>
    rw [List.map_append]
    exact Parser.begins_of_declares declares
  | opening directs => exact directive directs
  | repetition directs => exact directive directs

end Grammar

namespace Parser

open Grammar

variable {files : FileTree} {imported : List FilePath} {stream : List Sourced}

section Steps

variable {fuel : Nat} {schema tree : SchemaTree} {tokens : List Token} {warnings : List String}
  {last : Location} {s : ParseState}

theorem split_of_map {written rest : List Token} (split : stream.map (·.token) = written ++ rest) :
    ∃ first others, stream = first ++ others ∧ first.map (·.token) = written ∧
      others.map (·.token) = rest :=
  List.map_eq_append_iff.mp split

theorem directive_of_map {word path : Token} {rest : List Token}
    (split : stream.map (·.token) = word :: path :: rest) :
    ∃ word' path' others, stream = word' :: path' :: others ∧ word'.token = word ∧
      path'.token = path ∧ others.map (·.token) = rest := by
  obtain ⟨word', more, rfl, first, behind⟩ := List.map_eq_cons_iff.mp split
  obtain ⟨path', others, rfl, second, last⟩ := List.map_eq_cons_iff.mp behind
  exact ⟨word', path', others, rfl, first, second, last⟩

theorem enough_view {v : View} : Enough files (v.state last imported) fuel ↔
    v.tokens.length + 2 * files.unread imported < 2 * fuel := by
  unfold Enough
  rw [view_ahead, List.length_map]
  exact Iff.rfl

theorem reads_of_run (fuel : Nat) : ∀ {schema} {stream : List Sourced} {warnings imported last tree s},
    Enough files (View.state ⟨stream.map (·.token), [], warnings⟩ last imported) fuel →
    (parseDeclarations files fuel schema).run
      (View.state ⟨stream.map (·.token), [], warnings⟩ last imported) = .ok (tree, s) →
    ∃ ps, InPieces files imported stream ps ∧ Extends schema (declarationsOf ps) tree ∧
      s.warnings = warnings ++ (treeOf (declarationsOf ps)).warnings := by
  have everything : Closed files fun _ => True := fun _ _ _ _ _ => trivial
  induction fuel with
  | zero => exact fun enough => absurd enough (Nat.not_lt_zero _)
  | succ fuel ih =>
    intro schema stream warnings imported last tree s enough ran
    rw [enough_view, List.length_map] at enough
    cases stepped_of_run ran with
    | done empty same warned =>
      obtain rfl : stream = [] := List.map_eq_nil_iff.mp empty
      dsimp only at same warned
      subst same
      exact ⟨[], .done, ⟨(List.append_nil _).symm, (List.append_nil _).symm, (List.append_nil _).symm⟩,
        by rw [warned]; exact (List.append_nil _).symm⟩
    | @declared d written rest last' split declares further =>
      obtain ⟨first, others, rfl, rfl, rfl⟩ := split_of_map split
      have long := declares.two_le
      rw [List.length_map] at long
      rw [List.length_append] at enough
      have less : Enough files
          (View.state ⟨others.map (·.token), [], warnings ++ d.warnings⟩ last' imported) fuel := by
        rw [enough_view, List.length_map]
        omega
      obtain ⟨ps, reads, extends', warned⟩ := ih less further
      refine ⟨.declaration d first :: ps, .declaration declares reads, extends'.cons, ?_⟩
      rw [warned, List.append_assoc]
      exact congrArg (warnings ++ ·) (warnings_cons d (declarationsOf ps)).symm
    | @again word path text rest last' split keyword string known further =>
      obtain ⟨word', path', others, rfl, rfl, rfl, rfl⟩ := directive_of_map split
      have less : Enough files (View.state ⟨others.map (·.token), [], warnings⟩ last' imported) fuel := by
        rw [enough_view, List.length_map]
        simp only [List.length_cons] at enough
        omega
      obtain ⟨ps, reads, extends', warned⟩ := ih less further
      exact ⟨.repetition word' path' :: ps, .repetition ⟨keyword, _, string, rfl⟩ known reads, extends',
        warned⟩
    | @opened word path text content rest s' split keyword string new read front settled waiting warned
        same further =>
      obtain ⟨word', path', others, rfl, rfl, rfl, rfl⟩ := directive_of_map split
      have left := FileTree.unread_of_read_text read new
      have tokens := stream_length_le (importPath files path'.token.location.file text).text content
      change _ + files.unread (importPath files path'.token.location.file text :: imported) ≤
        files.unread imported at left
      simp only [List.length_cons] at enough
      have less : Enough files s' fuel := by
        unfold Enough
        rw [same, front]
        simp only [List.length_append, List.length_map]
        omega
      -- The rest of the run has ended well, so there was no fault in the file that it has opened.
      have clean := (declarations_within everything fuel settled (fun _ _ => trivial) less).of_ok further
      obtain ⟨held, lexed⟩ := tokens_of_stream fun e met => clean e
        (front ▸ List.mem_append_left _ met)
      rw [stream_of_tokens lexed, ← List.map_append] at front
      have state := state_of_ahead settled front
      rw [waiting, warned, same] at state
      have joined : (tokensOf (some (importPath files path'.token.location.file text)) held ++
          others).map (·.token) = held ++ others.map (·.token) := by simp
      rw [← joined] at state
      rw [state] at further less
      obtain ⟨ps, reads, extends', warned⟩ := ih less further
      exact ⟨.opening _ held word' path' :: ps,
        .opening ⟨keyword, _, string, rfl⟩ new ⟨content, read, lexed⟩ reads, extends', warned⟩

end Steps

section Runs

variable {fuel : Nat} {schema tree : SchemaTree} {rest content : List Token} {warnings : List String}
  {word path : Token} {target : FilePath}

theorem Leads.bind {α β : Type} {p : Parser α} {next : α → Parser β} {v v' v'' : View} {a : α} {b : β}
    {imported imported' imported'' : List FilePath} (first : Leads p v imported a v' imported')
    (later : Leads (next a) v' imported' b v'' imported'') :
    Leads (p >>= next) v imported b v'' imported'' := by
  intro last
  obtain ⟨last', ran⟩ := first last
  obtain ⟨last'', further⟩ := later last'
  refine ⟨last'', ?_⟩
  rw [StateT.run_bind, ran]
  exact further

theorem leads_repetition (directs : Directs files word path target) (known : target ∈ imported) :
    Leads (parseImport files) ⟨word :: path :: rest, [], warnings⟩ imported ⟨⟩ ⟨rest, [], warnings⟩
      imported := by
  obtain ⟨text, string, rfl⟩ := directs.path
  obtain ⟨lexeme, location⟩ := path
  cases string
  refine takes_no_annotations.leads (takes_advance.leads (takes_current.leads fun last => ?_))
  have contained : imported.contains (importPath files location.file text) = true := by simpa using known
  refine ⟨location, ?_⟩
  change (if imported.contains (importPath files location.file text) then readAhead else _).run
    { View.state ⟨⟨.string text, location⟩ :: rest, [], warnings⟩ last imported with last := location } = _
  rw [if_pos contained]
  cases rest <;> rfl

theorem leads_opening (directs : Directs files word path target) (new : target ∉ imported)
    (holds : Holds files target content) :
    Leads (parseImport files) ⟨word :: path :: rest, [], warnings⟩ imported ⟨⟩
      ⟨content ++ rest, [], warnings⟩ (target :: imported) := by
  obtain ⟨text, string, rfl⟩ := directs.path
  obtain ⟨source, read, lexed⟩ := holds
  obtain ⟨lexeme, location⟩ := path
  cases string
  refine takes_no_annotations.leads (takes_advance.leads (takes_current.leads fun last => ?_))
  have absent : ¬ imported.contains (importPath files location.file text) = true := by simpa using new
  refine ⟨location, ?_⟩
  change (if imported.contains (importPath files location.file text) then readAhead else _).run
    { View.state ⟨⟨.string text, location⟩ :: rest, [], warnings⟩ last imported with last := location } = _
  dsimp only at read lexed ⊢
  rw [if_neg absent, read]
  dsimp only
  rw [stream_of_tokens lexed]
  cases content with
  | nil => cases rest <;> rfl
  | cons first others =>
    change Except.ok (PUnit.unit, ParseState.mk (some first) (others.map .ok ++ rest.map .ok) _ _ _ _) = _
    rw [← List.map_append]
    rfl

theorem leads_directed {v v' : View} {imported' imported'' : List FilePath}
    (keyword : word.lexeme = .keyword .importing)
    (taken : Leads (parseImport files) ⟨word :: path :: rest, [], warnings⟩ imported ⟨⟩ v imported')
    (further : Leads (parseDeclarations files fuel schema) v imported' tree v' imported'') :
    Leads (parseDeclarations files (fuel + 1) schema) ⟨word :: path :: rest, [], warnings⟩ imported tree v'
      imported'' := by
  obtain ⟨lexeme, location⟩ := word
  cases keyword
  apply Leads.get
  intro _
  rw [if_neg (by simp [View.state])]
  have unannotated : Unannotated (⟨.keyword .importing, location⟩ :: path :: rest) := by
    intro t same text note
    cases same
    cases note
  refine (takes_collected .nil unannotated).leads (Leads.get fun _ => ?_)
  exact taken.bind further

theorem run_of_pieces {stream : List Sourced} {ps : List Piece}
    (pieces : InPieces files imported stream ps) : ∀ {fuel schema warnings},
      stream.length + 2 * files.unread imported < 2 * fuel →
        ∃ tree imported', Extends schema (declarationsOf ps) tree ∧
          Leads (parseDeclarations files fuel schema) ⟨stream.map (·.token), [], warnings⟩ imported tree
            ⟨[], [], warnings ++ (treeOf (declarationsOf ps)).warnings⟩ imported' := by
  induction pieces with
  | @done imported =>
    intro fuel schema warnings enough
    obtain ⟨fuel, rfl⟩ : ∃ n, fuel = n + 1 := ⟨fuel - 1, by omega⟩
    have kept : warnings ++ (treeOf (declarationsOf [])).warnings = warnings := List.append_nil _
    rw [kept]
    exact ⟨schema, imported, ⟨(List.append_nil _).symm, (List.append_nil _).symm,
      (List.append_nil _).symm⟩, .get fun last => fun last => ⟨last, rfl⟩⟩
  | @declaration imported d written rest ps declares others ih =>
    intro fuel schema warnings enough
    obtain ⟨fuel, rfl⟩ : ∃ n, fuel = n + 1 := ⟨fuel - 1, by omega⟩
    have long := declares.two_le
    rw [List.length_map] at long
    rw [List.length_append] at enough
    obtain ⟨tree, imported', behind, leads⟩ :=
      @ih fuel (d.addTo schema) (warnings ++ d.warnings) (by omega)
    refine ⟨tree, imported', behind.cons, ?_⟩
    have warned := warnings_cons d (declarationsOf ps)
    change (treeOf (declarationsOf (.declaration d written :: ps))).warnings = _ at warned
    rw [warned, ← List.append_assoc, List.map_append]
    exact leads_declared declares others.begins leads
  | @opening imported target content rest ps word path directs new holds others ih =>
    intro fuel schema warnings enough
    obtain ⟨fuel, rfl⟩ : ∃ n, fuel = n + 1 := ⟨fuel - 1, by omega⟩
    obtain ⟨source, read, lexed⟩ := id holds
    obtain ⟨text, _, same⟩ := directs.path
    have left : source.length + files.unread (target :: imported) ≤ files.unread imported := by
      rw [same] at read new ⊢
      exact FileTree.unread_of_read_text read new
    have tokens := stream_length_le target.text source
    rw [stream_of_tokens lexed, List.length_map] at tokens
    simp only [List.length_cons] at enough
    have fewer : (tokensOf (some target) content ++ rest).length +
        2 * files.unread (target :: imported) < 2 * fuel := by
      rw [List.length_append, tokensOf, List.length_map]
      omega
    obtain ⟨tree, imported', behind, leads⟩ := @ih fuel schema warnings fewer
    refine ⟨tree, imported', behind, ?_⟩
    rw [List.map_append, map_tokens_of] at leads
    exact leads_directed directs.keyword (leads_opening directs new holds) leads
  | @repetition imported target rest ps word path directs known others ih =>
    intro fuel schema warnings enough
    obtain ⟨fuel, rfl⟩ : ∃ n, fuel = n + 1 := ⟨fuel - 1, by omega⟩
    simp only [List.length_cons] at enough
    obtain ⟨tree, imported', behind, leads⟩ := @ih fuel schema warnings (by omega)
    exact ⟨tree, imported', behind,
      leads_directed directs.keyword (leads_repetition directs known) leads⟩

end Runs

theorem whole_ok {fuel : Nat} {tree : SchemaTree} {s : ParseState}
    (ran : (whole files fuel).run' s = .ok tree) :
    ∃ s₁ schema s₂, readAhead.run s = .ok (⟨⟩, s₁) ∧
      (parseDeclarations files fuel {}).run s₁ = .ok (schema, s₂) ∧
      tree = { schema with warnings := s₂.warnings } := by
  rw [whole, StateT.run'_eq, StateT.run_bind] at ran
  cases began : readAhead.run s with
  | error e =>
    rw [began] at ran
    cases ran
  | ok r =>
    obtain ⟨⟨⟩, s₁⟩ := r
    rw [began] at ran
    change (fun r : SchemaTree × ParseState => r.1) <$> ((parseDeclarations files fuel {} >>= fun schema =>
      get >>= fun s => pure { schema with warnings := s.warnings } : Parser SchemaTree).run s₁) = _ at ran
    rw [StateT.run_bind] at ran
    cases read : (parseDeclarations files fuel {}).run s₁ with
    | error e =>
      rw [read] at ran
      cases ran
    | ok r =>
      rw [read] at ran
      cases ran
      exact ⟨s₁, r.1, r.2, rfl, read, rfl⟩

section Unique

variable {marks : Nat → Prop} {d d' : Declaration} {written written' rest rest' : List Token}

theorem leads_front (declares : Declares marks d written) (begins : Begins rest) :
    Leads (parseDeclarations ⟨[], []⟩ 1 {}) ⟨written ++ rest, [], []⟩ [] (d.addTo {})
      ⟨rest, [], d.warnings⟩ [] :=
  leads_declared declares begins fun last => ⟨last, rfl⟩

theorem declared_front (first : Declares marks d written) (begins : Begins rest)
    (second : Declares marks d' written') (begins' : Begins rest')
    (same : written ++ rest = written' ++ rest') : written = written' := by
  obtain ⟨last, ran⟩ := leads_front first begins default
  obtain ⟨last', ran'⟩ := leads_front second begins' default
  rw [same, ran'] at ran
  -- Both ends are where the one round stops.
  have ahead := congrArg (fun r => ParseState.ahead r.2) (Except.ok.inj ran)
  simp only [view_ahead] at ahead
  have behind : rest' = rest := List.map_injective_iff.mpr (fun _ _ => Except.ok.inj) ahead
  rw [behind] at same
  exact List.append_cancel_right same

theorem declared_not_directive {word : Token} (declares : Declares marks d (word :: rest)) :
    word.lexeme ≠ .keyword .importing := by
  have opening : ∀ {noted notes keyword behind k}, Grammar.Notes noted notes →
      keyword.lexeme = .keyword k → k ≠ .importing → word :: rest = noted ++ keyword :: behind →
        word.lexeme ≠ .keyword .importing := by
    intro noted notes keyword behind k annotated written other split same
    cases annotated with
    | nil =>
      obtain rfl := (List.cons_eq_cons.mp split).1
      exact other (Lexeme.keyword.inj (written.symm.trans same))
    | cons own =>
      obtain rfl := (List.cons_eq_cons.mp split).1
      obtain ⟨_, _, note, _⟩ := own
      cases note.symm.trans same
  generalize split : word :: rest = tokens at declares
  cases declares with
  | type annotated keyword => exact opening annotated keyword (by decide) split
  | error annotated keyword => exact opening annotated keyword (by decide) split
  | function annotated keyword =>
    obtain ⟨k, listed, keyword⟩ := keyword
    have other : ∀ k ∈ [Keyword.fn, .get, .function], k ≠ .importing := by decide
    exact opening annotated keyword (other k listed) split

end Unique

end Parser

namespace Grammar

variable {files : FileTree} {imported : List FilePath} {stream : List Sourced} {ps ps' : List Piece}

theorem Directs.unique {word path : Token} {target target' : FilePath}
    (first : Directs files word path target) (second : Directs files word path target') :
    target = target' := by
  obtain ⟨text, string, rfl⟩ := first.path
  obtain ⟨text', string', rfl⟩ := second.path
  cases string.symm.trans string'
  rfl

theorem Holds.unique {target : FilePath} {ts ts' : List Token} (first : Holds files target ts)
    (second : Holds files target ts') : ts = ts' := by
  obtain ⟨content, read, lexed⟩ := first
  obtain ⟨content', read', lexed'⟩ := second
  cases read.symm.trans read'
  exact Except.ok.inj (lexed.symm.trans lexed')

theorem front_not_directive {d : Declaration} {written rest others : List Token} {word : Token}
    (declares : Declares anyNumber d written) (split : written ++ rest = word :: others) :
    word.lexeme ≠ .keyword .importing := by
  cases written with
  | nil => exact absurd declares.two_le (by simp)
  | cons first more =>
    obtain rfl := (List.cons_eq_cons.mp split).1
    exact Parser.declared_not_directive declares

theorem written_not_directive {d : Declaration} {written rest others : List Sourced} {word : Sourced}
    (declares : Declares anyNumber d (written.map (·.token))) (split : written ++ rest = word :: others) :
    word.token.lexeme ≠ .keyword .importing := by
  have tokens := congrArg (List.map (·.token)) split
  rw [List.map_append] at tokens
  exact front_not_directive declares tokens

theorem InPieces.unique (first : InPieces files imported stream ps)
    (second : InPieces files imported stream ps') : ps.map Piece.taken = ps'.map Piece.taken := by
  -- Either front is a declaration, which only one length can have, or a directive, whose file and
  -- whose being known or new are settled by the two tokens.
  induction first generalizing ps' with
  | @done imported =>
    generalize empty : [] = stream at second
    cases second with
    | done => rfl
    | declaration declares =>
      obtain ⟨rfl, _⟩ := List.append_eq_nil_iff.mp empty.symm
      exact absurd declares.two_le (by simp)
    | opening => cases empty
    | repetition => cases empty
  | @declaration imported d written rest ps declares others ih =>
    generalize split : written ++ rest = stream at second
    cases second with
    | done =>
      obtain ⟨rfl, _⟩ := List.append_eq_nil_iff.mp split
      exact absurd declares.two_le (by simp)
    | @declaration _ d' written' rest' ps' declares' others' =>
      have tokens := congrArg (List.map (·.token)) split
      rw [List.map_append, List.map_append] at tokens
      have front := Parser.declared_front declares others.begins declares' others'.begins tokens
      have long : written.length = written'.length := by simpa using congrArg List.length front
      obtain ⟨rfl, rfl⟩ := List.append_inj split long
      rw [List.map_cons, List.map_cons, ih others']
      rfl
    | opening directs => exact absurd directs.keyword (written_not_directive declares split)
    | repetition directs => exact absurd directs.keyword (written_not_directive declares split)
  | @opening imported target content rest ps word path directs new holds others ih =>
    generalize split : word :: path :: rest = stream at second
    cases second with
    | done => cases split
    | declaration declares =>
      exact absurd directs.keyword (written_not_directive declares split.symm)
    | opening directs' _ holds' others' =>
      cases split
      obtain rfl := directs.unique directs'
      obtain rfl := holds.unique holds'
      rw [List.map_cons, List.map_cons, ih others']
    | repetition directs' known =>
      cases split
      exact absurd (directs.unique directs' ▸ known) new
  | @repetition imported target rest ps word path directs known others ih =>
    generalize split : word :: path :: rest = stream at second
    cases second with
    | done => cases split
    | declaration declares =>
      exact absurd directs.keyword (written_not_directive declares split.symm)
    | opening directs' new =>
      cases split
      exact absurd (directs.unique directs' ▸ known) new
    | repetition _ _ others' =>
      cases split
      rw [List.map_cons, List.map_cons, ih others']

/-- The file of a source itself counts as imported, if it has one. -/
def entry (files : FileTree) (file : String) : List FilePath :=
  if file = "-" then [] else [files.resolve (FilePath.ofText file)]

/-- A source is parsed exactly if its tokens can be read in pieces, as the tree of the declarations
among these. -/
theorem parse_iff_pieces {file source : String} {tree : SchemaTree} :
    SchemaTree.parse files file source = .ok tree ↔
      (file = "-" ∨ FileTree.hasNull (FilePath.ofText file) = false) ∧ ∃ ts ps,
        (TokenStream.ofSource file source).tokens = .ok ts ∧
        InPieces files (entry files file) (tokensOf none ts) ps ∧ tree = treeOf (declarationsOf ps) := by
  have short : (TokenStream.ofSource file source).length ≤ source.length + 1 :=
    Parser.read_length_le file _ _
  have left := files.unread_le_total (entry files file)
  constructor
  · intro parsed
    have named : file = "-" ∨ FileTree.hasNull (FilePath.ofText file) = false := by
      by_contra unnamed
      obtain ⟨other, null⟩ := not_or.mp unnamed
      unfold SchemaTree.parse at parsed
      rw [if_pos (by simp [other, null])] at parsed
      cases parsed
    refine ⟨named, ?_⟩
    rw [Parser.parse_eq files file source named] at parsed
    obtain ⟨s, schema, s', began, ran, rfl⟩ := Parser.whole_ok parsed
    obtain ⟨ahead, settled, imported, waiting, warned⟩ := (Parser.read_ahead_within _).of_ok began
    have enough := Parser.enough_before files ahead
    have everything : Parser.Closed files fun _ => True := fun _ _ _ _ _ => trivial
    have clean := (Parser.declarations_within everything _ settled (fun _ _ => trivial) enough).of_ok ran
    obtain ⟨ts, lexed⟩ := Parser.tokens_of_stream fun e met => clean e (ahead.symm ▸ met)
    have front : s.ahead = ts.map .ok := ahead.trans (Parser.stream_of_tokens lexed)
    have state := Parser.state_of_ahead settled front
    rw [imported, waiting, warned, ← map_tokens_of none ts] at state
    rw [state] at ran enough
    obtain ⟨ps, pieces, behind, warned'⟩ := Parser.reads_of_run _ enough ran
    refine ⟨ts, ps, lexed, pieces, ?_⟩
    rw [warned']
    exact Parser.extends_empty behind
  · rintro ⟨named, ts, ps, lexed, pieces, rfl⟩
    have stream := Parser.stream_of_tokens lexed
    rw [stream, List.length_map] at short
    rw [Parser.parse_eq files file source named, stream, Parser.whole_run]
    have enough : (tokensOf none ts).length + 2 * files.unread (entry files file) <
        2 * (source.length + files.totalSize + 1) := by
      rw [tokensOf, List.length_map]
      omega
    obtain ⟨tree, imported, behind, leads⟩ := @Parser.run_of_pieces _ _ _ _ pieces _ {} [] enough
    obtain ⟨last, ran⟩ := leads ⟨file, .start⟩
    rw [map_tokens_of] at ran
    unfold entry at ran
    rw [ran]
    exact congrArg Except.ok (Parser.extends_empty behind)

end Grammar

end ApiSchema

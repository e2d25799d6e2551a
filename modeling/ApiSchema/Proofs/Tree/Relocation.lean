import ApiSchema.Proofs.Token.Names
import ApiSchema.Proofs.Token.Spelling
import ApiSchema.Proofs.Tree.Pieces
import ApiSchema.Proofs.Tree.Plain

/-! Declarations that are written at other places. Tokens that say the same in the same file are those of
the same declarations, apart from where these stand. -/

namespace ApiSchema

/-- What a token says, and the file that it stands in. -/
def Token.content (t : Token) : Lexeme × String := (t.lexeme, t.location.file)

/-- The tokens say the same in the same files, at whatever places. -/
abbrev Token.Alike (ts ts' : List Token) : Prop := ts'.map content = ts.map content

def TypeDeclaration.plain (d : TypeDeclaration) : TypeDeclaration :=
  ⟨d.name, d.type.plain, d.notes.map Note.plain, {}⟩

def ErrorDeclaration.plain (e : ErrorDeclaration) : ErrorDeclaration :=
  ⟨e.name, e.data.plain, e.notes.map Note.plain, {}⟩

def FunctionDeclaration.plain (f : FunctionDeclaration) : FunctionDeclaration where
  name := f.name
  members := MemberTree.plains f.members
  returns := f.returns.plain
  notes := f.notes.map Note.plain
  isGetter := f.isGetter
  location := {}

/-- The declarations of a source without their places. Of its warnings, which tell places, only the
number is left. -/
def SchemaTree.plain (tree : SchemaTree) :
    List TypeDeclaration × List ErrorDeclaration × List FunctionDeclaration × Nat :=
  (tree.types.map (·.plain), tree.errors.map (·.plain), tree.functions.map (·.plain),
    tree.warnings.length)

section Plain

theorem FieldTree.notes_plain (f : FieldTree) : f.plain.notes = f.notes.map Note.plain := by
  cases f
  rfl

theorem FieldTree.bare_of_plain {f f' : FieldTree} (same : f'.plain = f.plain) (bare : f.notes = []) :
    f'.notes = [] := by
  have notes := congrArg FieldTree.notes same
  rw [f'.notes_plain, f.notes_plain, bare] at notes
  exact List.map_eq_nil_iff.mp notes

theorem FieldTree.plain_noted {f : FieldTree} {name : String} {t : TypeTree} {secret : Bool}
    {notes others : List Note} {location : Location} (same : (mk name t secret others location).plain = f.plain)
    (said : notes.map Note.plain = f.notes.map Note.plain) :
    (mk name t secret notes location).plain = f.plain := by
  obtain ⟨name', t', secret', own, location'⟩ := f
  rw [plain, plain, FieldTree.mk.injEq] at same ⊢
  exact ⟨same.1, same.2.1, same.2.2.1, said, rfl⟩

theorem FieldTree.plain_name (f : FieldTree) : f.plain.name = f.name := by
  cases f
  rfl

theorem MemberTree.field_names_plain (ms : List MemberTree) :
    fieldNames (plains ms) = fieldNames ms := by
  induction ms with
  | nil => rfl
  | cons m ms ih =>
    cases m with
    | field f =>
      change f.plain.name :: fieldNames (plains ms) = f.name :: fieldNames ms
      rw [f.plain_name, ih]
    | spread => exact ih

theorem MemberTree.field_names_of_plains {ms ms' : List MemberTree} (same : plains ms' = plains ms) :
    fieldNames ms' = fieldNames ms := by
  rw [← field_names_plain ms', same, field_names_plain ms]

end Plain

namespace Grammar

/-- Phrases that differ in their places alone. -/
inductive Phrase.Alike : Phrase → Phrase → Prop where
  | type {t t'} (same : t'.plain = t.plain) : Alike (.type t) (.type t')
  | struct {t t'} (same : t'.plain = t.plain) : Alike (.struct t) (.struct t')
  | members {ms ms'} (same : MemberTree.plains ms' = MemberTree.plains ms) :
    Alike (.members ms) (.members ms')
  | field {f f' : FieldTree} (same : f'.plain = f.plain) : Alike (.field f) (.field f')
  | values {vs vs'} (same : ValueTree.plains vs' = ValueTree.plains vs) :
    Alike (.values vs) (.values vs')
  | argument {m m' : MemberTree} (same : m'.plain = m.plain) : Alike (.argument m) (.argument m')
  | arguments {ms ms'} (same : MemberTree.plains ms' = MemberTree.plains ms) :
    Alike (.arguments ms) (.arguments ms')

section Tokens

variable {t : Token} {ts first second ts' : List Token}

theorem alike_nil (alike : Token.Alike [] ts') : ts' = [] := List.map_eq_nil_iff.mp alike

theorem alike_cons (alike : Token.Alike (t :: ts) ts') : ∃ t' rest, ts' = t' :: rest ∧
    t'.lexeme = t.lexeme ∧ t'.location.file = t.location.file ∧ Token.Alike ts rest := by
  obtain ⟨t', rest, rfl, same, others⟩ := List.map_eq_cons_iff.mp alike
  obtain ⟨lexeme, file⟩ := Prod.mk.inj same
  exact ⟨t', rest, rfl, lexeme, file, others⟩

theorem alike_append (alike : Token.Alike (first ++ second) ts') : ∃ first' second',
    ts' = first' ++ second' ∧ Token.Alike first first' ∧ Token.Alike second second' := by
  unfold Token.Alike at alike
  rw [List.map_append] at alike
  exact List.map_eq_append_iff.mp alike

theorem alike_single (alike : Token.Alike [t] ts') : ∃ t', ts' = [t'] ∧ t'.lexeme = t.lexeme := by
  obtain ⟨t', rest, rfl, lexeme, _, others⟩ := alike_cons alike
  obtain rfl := alike_nil others
  exact ⟨t', rfl, lexeme⟩

end Tokens

variable {marks : Nat → Prop} {ts ts' : List Token}

section Parts

theorem IsNote.relocated {token token' : Token} {note : Note} (written : IsNote token note)
    (same : token'.lexeme = token.lexeme) : ∃ note', IsNote token' note' ∧ note'.plain = note.plain := by
  obtain ⟨text, content, lexeme, read, rfl⟩ := written
  exact ⟨⟨content, token'.location⟩, ⟨text, content, same.trans lexeme, read, rfl⟩, rfl⟩

theorem Notes.relocated {notes : List Note} (annotated : Notes ts notes) (alike : Token.Alike ts ts') :
    ∃ notes', Notes ts' notes' ∧ notes'.map Note.plain = notes.map Note.plain := by
  induction annotated generalizing ts' with
  | nil =>
    obtain rfl := alike_nil alike
    exact ⟨[], .nil, rfl⟩
  | cons own _ ih =>
    obtain ⟨t', rest, rfl, lexeme, _, others⟩ := alike_cons alike
    obtain ⟨note', written, same⟩ := own.relocated lexeme
    obtain ⟨notes', annotated, all⟩ := ih others
    exact ⟨note' :: notes', .cons written annotated, by rw [List.map_cons, List.map_cons, same, all]⟩

theorem Maybe.relocated {m : Mark} (maybe : Maybe m ts) (alike : Token.Alike ts ts') : Maybe m ts' := by
  cases maybe with
  | absent =>
    obtain rfl := alike_nil alike
    exact .absent
  | present written =>
    obtain ⟨t', rfl, lexeme⟩ := alike_single alike
    exact .present (lexeme.trans written)

theorem Marks.relocated {n : Nat} (marked : Marks n ts) (alike : Token.Alike ts ts') : Marks n ts' := by
  induction marked generalizing ts' with
  | none =>
    obtain rfl := alike_nil alike
    exact .none
  | secret written named _ ih =>
    obtain ⟨mark, rest, rfl, lexeme, _, behind⟩ := alike_cons alike
    obtain ⟨word, others, rfl, lexeme', _, others⟩ := alike_cons behind
    exact .secret (lexeme.trans written) (lexeme' ▸ named) (ih others)

theorem Spreads.relocated {m : MemberTree} (spreads : Spreads m ts) (alike : Token.Alike ts ts') :
    ∃ m', Spreads m' ts' ∧ m'.plain = m.plain := by
  cases spreads with
  | named written named capital =>
    obtain ⟨dots, rest, rfl, lexeme, _, behind⟩ := alike_cons alike
    obtain ⟨word, rfl, lexeme'⟩ := alike_single behind
    exact ⟨_, .named (lexeme.trans written) (lexeme' ▸ named) capital, rfl⟩

theorem Labels.relocated {word word' : Token} {text : String} (labels : Labels word text)
    (same : word'.lexeme = word.lexeme) : Labels word' text := by
  unfold Labels
  rw [same]
  exact labels

end Parts

theorem Derives.noted {name : String} {t : TypeTree} {secret : Bool} {notes : List Note}
    {location : Location} (field : Derives marks (.field (.mk name t secret notes location)) ts)
    (others : List Note) : Derives marks (.field (.mk name t secret others location)) ts := by
  cases field with
  | field named separated type secret allowed => exact .field named separated type secret allowed

theorem Derives.relocated {phrase : Phrase} (derived : Derives marks phrase ts) :
    ∀ {ts'}, Token.Alike ts ts' → ∃ phrase', Derives marks phrase' ts' ∧ phrase.Alike phrase' := by
  induction derived with
  | primitive written =>
    intro ts' alike
    obtain ⟨t', rfl, lexeme⟩ := alike_single alike
    exact ⟨_, .primitive (lexeme.trans written), .type rfl⟩
  | reference written capital =>
    intro ts' alike
    obtain ⟨t', rfl, lexeme⟩ := alike_single alike
    exact ⟨_, .reference (lexeme.trans written) capital, .type rfl⟩
  | literal _ ih =>
    intro ts' alike
    obtain ⟨_, struct, phrases⟩ := ih alike
    cases phrases with
    | struct same => exact ⟨_, .literal struct, .type same⟩
  | enum keyword opens _ ih =>
    intro ts' alike
    obtain ⟨word, rest, rfl, lexeme, _, behind⟩ := alike_cons alike
    obtain ⟨brace, rest, rfl, lexeme', _, behind⟩ := alike_cons behind
    obtain ⟨_, values, phrases⟩ := ih behind
    cases phrases with
    | values same =>
      exact ⟨_, .enum (lexeme.trans keyword) (lexeme'.trans opens) values,
        .type (by rw [TypeTree.plain, TypeTree.plain, same])⟩
  | parens opens _ closes ih =>
    intro ts' alike
    obtain ⟨left, rest, rfl, lexeme, _, behind⟩ := alike_cons alike
    obtain ⟨inner, last, rfl, inside, behind⟩ := alike_append behind
    obtain ⟨right, rfl, lexeme'⟩ := alike_single behind
    obtain ⟨_, type, phrases⟩ := ih inside
    cases phrases with
    | type same => exact ⟨_, .parens (lexeme.trans opens) type (lexeme'.trans closes), .type same⟩
  | optional _ written ih =>
    intro ts' alike
    obtain ⟨inner, last, rfl, inside, behind⟩ := alike_append alike
    obtain ⟨suffix, rfl, lexeme⟩ := alike_single behind
    obtain ⟨_, type, phrases⟩ := ih inside
    cases phrases with
    | type same =>
      exact ⟨_, .optional type (lexeme.trans written), .type (by rw [TypeTree.plain, TypeTree.plain, same])⟩
  | array _ written ih =>
    intro ts' alike
    obtain ⟨inner, last, rfl, inside, behind⟩ := alike_append alike
    obtain ⟨suffix, rfl, lexeme⟩ := alike_single behind
    obtain ⟨_, type, phrases⟩ := ih inside
    cases phrases with
    | type same =>
      exact ⟨_, .array type (lexeme.trans written), .type (by rw [TypeTree.plain, TypeTree.plain, same])⟩
  | struct opens _ distinct ih =>
    intro ts' alike
    obtain ⟨brace, rest, rfl, lexeme, _, behind⟩ := alike_cons alike
    obtain ⟨_, members, phrases⟩ := ih behind
    cases phrases with
    | members same =>
      rw [← MemberTree.field_names_of_plains same] at distinct
      exact ⟨_, .struct (lexeme.trans opens) members distinct,
        .struct (by rw [TypeTree.plain, TypeTree.plain, same])⟩
  | closed closes =>
    intro ts' alike
    obtain ⟨brace, rfl, lexeme⟩ := alike_single alike
    exact ⟨_, .closed (lexeme.trans closes), .members rfl⟩
  | spread spread separated _ ih =>
    intro ts' alike
    obtain ⟨written, rest, rfl, front, behind⟩ := alike_append alike
    obtain ⟨sep, rest, rfl, between, behind⟩ := alike_append behind
    obtain ⟨_, spread, first⟩ := spread.relocated front
    obtain ⟨_, members, phrases⟩ := ih behind
    cases phrases with
    | members same =>
      exact ⟨_, .spread spread (separated.relocated between) members,
        .members (by rw [MemberTree.plains, MemberTree.plains, first, same])⟩
  | @member f ms noted written sep ts annotated _ separated _ first others =>
    intro ts' alike
    obtain ⟨noted', rest, rfl, before, behind⟩ := alike_append alike
    obtain ⟨written', rest, rfl, front, behind⟩ := alike_append behind
    obtain ⟨sep', rest, rfl, between, behind⟩ := alike_append behind
    obtain ⟨notes, annotated, said⟩ := annotated.relocated before
    obtain ⟨_, field, phrase⟩ := first front
    obtain ⟨ms', members, phrases⟩ := others behind
    cases phrase with
    | @field _ f' same =>
      cases phrases with
      | members all =>
        obtain ⟨name, t, secret, _, location⟩ := f'
        refine ⟨.members (.field (.mk name t secret notes location) :: _),
          .member annotated (field.noted notes) (separated.relocated between) members, .members ?_⟩
        rw [MemberTree.plains, MemberTree.plains, all, MemberTree.plain, MemberTree.plain,
          FieldTree.plain_noted same said]
  | field named separated _ secret allowed ih =>
    intro ts' alike
    obtain ⟨word, rest, rfl, lexeme, _, behind⟩ := alike_cons alike
    obtain ⟨colon, rest, rfl, lexeme', _, behind⟩ := alike_cons behind
    obtain ⟨inner, marked, rfl, inside, behind⟩ := alike_append behind
    obtain ⟨_, type, phrases⟩ := ih inside
    cases phrases with
    | type same =>
      exact ⟨_, .field (lexeme ▸ named) (lexeme'.trans separated) type (secret.relocated behind) allowed,
        .field (by rw [FieldTree.plain, FieldTree.plain, same])⟩
  | complete closes =>
    intro ts' alike
    obtain ⟨brace, rfl, lexeme⟩ := alike_single alike
    exact ⟨_, .complete (lexeme.trans closes), .values rfl⟩
  | tag annotated labels separated _ ih =>
    intro ts' alike
    obtain ⟨noted, rest, rfl, before, behind⟩ := alike_append alike
    obtain ⟨word, rest, rfl, lexeme, _, behind⟩ := alike_cons behind
    obtain ⟨sep, rest, rfl, between, behind⟩ := alike_append behind
    obtain ⟨notes, annotated, said⟩ := annotated.relocated before
    obtain ⟨_, values, phrases⟩ := ih behind
    cases phrases with
    | values same =>
      exact ⟨_, .tag annotated (labels.relocated lexeme) (separated.relocated between) values,
        .values (by simp only [ValueTree.plains, ValueTree.plain, said, same])⟩
  | tagged annotated labels _ separated _ data others =>
    intro ts' alike
    obtain ⟨noted, rest, rfl, before, behind⟩ := alike_append alike
    obtain ⟨word, rest, rfl, lexeme, _, behind⟩ := alike_cons behind
    obtain ⟨written, rest, rfl, front, behind⟩ := alike_append behind
    obtain ⟨sep, rest, rfl, between, behind⟩ := alike_append behind
    obtain ⟨notes, annotated, said⟩ := annotated.relocated before
    obtain ⟨_, struct, phrase⟩ := data front
    obtain ⟨_, values, phrases⟩ := others behind
    cases phrase with
    | struct same =>
      cases phrases with
      | values all =>
        exact ⟨_, .tagged annotated (labels.relocated lexeme) struct (separated.relocated between) values,
          .values (by simp only [ValueTree.plains, ValueTree.plain, ValueTree.plainData, said, same, all])⟩
  | inherited spread =>
    intro ts' alike
    obtain ⟨_, spread, same⟩ := spread.relocated alike
    exact ⟨_, .inherited spread, .argument same⟩
  | own _ bare ih =>
    intro ts' alike
    obtain ⟨_, field, phrase⟩ := ih alike
    cases phrase with
    | field same =>
      exact ⟨_, .own field (FieldTree.bare_of_plain same bare), .argument (congrArg MemberTree.field same)⟩
  | none =>
    intro ts' alike
    obtain rfl := alike_nil alike
    exact ⟨_, .none, .arguments rfl⟩
  | last _ ih =>
    intro ts' alike
    obtain ⟨_, argument, phrase⟩ := ih alike
    cases phrase with
    | argument same =>
      exact ⟨_, .last argument, .arguments (by rw [MemberTree.plains, MemberTree.plains, same]; rfl)⟩
  | more _ separated _ first others =>
    intro ts' alike
    obtain ⟨written, rest, rfl, front, behind⟩ := alike_append alike
    obtain ⟨comma, rest, rfl, lexeme, _, behind⟩ := alike_cons behind
    obtain ⟨_, argument, phrase⟩ := first front
    obtain ⟨_, arguments, phrases⟩ := others behind
    cases phrase with
    | argument same =>
      cases phrases with
      | arguments all =>
        exact ⟨_, .more argument (lexeme.trans separated) arguments,
          .arguments (by rw [MemberTree.plains, MemberTree.plains, same, all])⟩

/-- Declarations that differ in their places alone, and are announced by the same words. -/
inductive Declaration.Alike : Declaration → Declaration → Prop where
  | type {d d'} (same : d'.plain = d.plain) : Alike (.type d) (.type d')
  | error {e e'} (same : e'.plain = e.plain) : Alike (.error e) (.error e')
  | function {word word' : Token} {f f'} (announced : word'.lexeme = word.lexeme)
    (same : f'.plain = f.plain) : Alike (.function word f) (.function word' f')

section Functions

variable {notes notes' : List Note} {ms ms' : List MemberTree}

theorem describes_plain (name : String) (note : Note) :
    describes? name note.plain = (describes? name note).map Note.plain := by
  obtain ⟨content, location⟩ := note
  cases content with
  | argument other text =>
    simp only [describes?, Note.plain]
    split <;> rfl
  | _ => rfl

theorem described_plain (notes : List Note) (m : MemberTree) :
    (described notes m).plain = described (notes.map Note.plain) m.plain := by
  cases m with
  | spread => rfl
  | field f =>
    obtain ⟨name, t, secret, own, location⟩ := f
    simp only [described, MemberTree.plain, FieldTree.plain, List.map_append, List.map_filterMap,
      List.filterMap_map, Function.comp_def, describes_plain]

theorem described_relocated (said : notes'.map Note.plain = notes.map Note.plain)
    (same : MemberTree.plains ms' = MemberTree.plains ms) :
    MemberTree.plains (ms'.map (described notes')) = MemberTree.plains (ms.map (described notes)) := by
  have commutes : ∀ (notes : List Note) (ms : List MemberTree),
      MemberTree.plains (ms.map (described notes)) =
        (MemberTree.plains ms).map (described (notes.map Note.plain)) := fun notes ms => by
    simp only [MemberTree.plains_eq_map, List.map_map, Function.comp_def, described_plain]
  rw [commutes, commutes, said, same]

theorem own_relocated (said : notes'.map Note.plain = notes.map Note.plain) :
    (notes'.filter (!isAboutArgument ·)).map Note.plain =
      (notes.filter (!isAboutArgument ·)).map Note.plain := by
  have commutes : ∀ notes : List Note, (notes.filter (!isAboutArgument ·)).map Note.plain =
      (notes.map Note.plain).filter (!isAboutArgument ·) := fun notes => by
    rw [List.filter_map]
    rfl
  rw [commutes, commutes, said]

theorem Targets.relocated (targets : Targets notes ms) (said : notes'.map Note.plain = notes.map Note.plain)
    (same : MemberTree.plains ms' = MemberTree.plains ms) : Targets notes' ms' := by
  intro note listed argument text content
  have member := List.mem_map_of_mem (f := Note.plain) listed
  rw [said] at member
  obtain ⟨note', listed', plain⟩ := List.mem_map.mp member
  rw [MemberTree.field_names_of_plains same]
  exact targets note' listed' argument text ((congrArg Note.content plain).trans content)

end Functions

section Declarations

variable {fallback : Location} {t : TypeTree}

theorem Announced.relocated (announced : Announced marks fallback t ts) (fallback' : Location)
    (alike : Token.Alike ts ts') : ∃ t', Announced marks fallback' t' ts' ∧ t'.plain = t.plain := by
  cases announced with
  | silent =>
    obtain rfl := alike_nil alike
    exact ⟨_, .silent, rfl⟩
  | colon written type =>
    obtain ⟨colon, rest, rfl, lexeme, _, behind⟩ := alike_cons alike
    obtain ⟨_, type, phrase⟩ := type.relocated behind
    cases phrase with
    | type same => exact ⟨_, .colon (lexeme.trans written) type, same⟩

theorem Payload.relocated (data : Payload marks fallback t ts) (fallback' : Location)
    (alike : Token.Alike ts ts') : ∃ t', Payload marks fallback' t' ts' ∧ t'.plain = t.plain := by
  cases data with
  | announced announced =>
    obtain ⟨t', announced, same⟩ := announced.relocated fallback' alike
    exact ⟨t', .announced announced, same⟩
  | bare type =>
    obtain ⟨_, type, phrase⟩ := type.relocated alike
    cases phrase with
    | type same => exact ⟨_, .bare type, same⟩

theorem Declares.relocated {d : Declaration} (declares : Declares marks d ts)
    (alike : Token.Alike ts ts') : ∃ d', Declares marks d' ts' ∧ d.Alike d' := by
  cases declares with
  | type annotated keyword named capital defined type =>
    obtain ⟨noted, rest, rfl, before, behind⟩ := alike_append alike
    obtain ⟨word, rest, rfl, announced, _, behind⟩ := alike_cons behind
    obtain ⟨label, rest, rfl, lexeme, _, behind⟩ := alike_cons behind
    obtain ⟨equals, rest, rfl, sign, behind⟩ := alike_append behind
    obtain ⟨notes, annotated, said⟩ := annotated.relocated before
    obtain ⟨_, type, phrase⟩ := type.relocated behind
    cases phrase with
    | type same =>
      exact ⟨_, .type annotated (announced.trans keyword) (lexeme ▸ named) capital
        (defined.relocated sign) type,
        .type (by rw [TypeDeclaration.plain, TypeDeclaration.plain, said, same])⟩
  | error annotated keyword named capital data =>
    obtain ⟨noted, rest, rfl, before, behind⟩ := alike_append alike
    obtain ⟨word, rest, rfl, announced, _, behind⟩ := alike_cons behind
    obtain ⟨label, rest, rfl, lexeme, _, behind⟩ := alike_cons behind
    obtain ⟨notes, annotated, said⟩ := annotated.relocated before
    obtain ⟨_, data, same⟩ := data.relocated label.location behind
    exact ⟨_, .error annotated (announced.trans keyword) (lexeme ▸ named) capital data,
      .error (by rw [ErrorDeclaration.plain, ErrorDeclaration.plain, said, same])⟩
  | function annotated keyword named opens arguments distinct closes targets returns =>
    obtain ⟨noted, rest, rfl, before, behind⟩ := alike_append alike
    obtain ⟨word, rest, rfl, announced, _, behind⟩ := alike_cons behind
    obtain ⟨label, rest, rfl, lexeme, _, behind⟩ := alike_cons behind
    obtain ⟨left, rest, rfl, opening, _, behind⟩ := alike_cons behind
    obtain ⟨args, rest, rfl, inside, behind⟩ := alike_append behind
    obtain ⟨right, rest, rfl, closing, _, behind⟩ := alike_cons behind
    obtain ⟨notes, annotated, said⟩ := annotated.relocated before
    obtain ⟨_, arguments, phrase⟩ := arguments.relocated inside
    obtain ⟨_, returns, result⟩ := returns.relocated right.location behind
    obtain ⟨k, listed, written⟩ := keyword
    cases phrase with
    | arguments same =>
      rw [← MemberTree.field_names_of_plains same] at distinct
      refine ⟨_, .function annotated ⟨k, listed, announced.trans written⟩ (lexeme ▸ named)
        (opening.trans opens) arguments distinct (closing.trans closes) (targets.relocated said same)
        returns, .function announced ?_⟩
      simp only [FunctionDeclaration.plain, described_relocated said same, result, own_relocated said,
        announced]

end Declarations

section Trees

theorem Declaration.Alike.warnings {d d' : Declaration} (alike : d.Alike d') :
    d'.warnings.length = d.warnings.length := by
  cases alike with
  | type | error => rfl
  | @function word word' f f' announced same =>
    simp only [Declaration.warnings, announced]
    split <;> rfl

theorem plain_of_alike {ds ds' : List Declaration} (alike : List.Forall₂ Declaration.Alike ds ds') :
    (treeOf ds').plain = (treeOf ds).plain := by
  induction alike with
  | nil => rfl
  | @cons d d' ds ds' first _ ih =>
    simp only [SchemaTree.plain, Prod.mk.injEq] at ih
    obtain ⟨types, errors, functions, warnings⟩ := ih
    have warned := first.warnings
    change (d'.join (treeOf ds')).plain = (d.join (treeOf ds)).plain
    cases first with
    | type same | error same | function _ same =>
      simp only [SchemaTree.plain, Declaration.join, List.map_cons, List.length_append, same, types, errors,
        functions, warnings, warned]

end Trees

section Streams

variable {files : FileTree} {imported : List FilePath} {stream : List Sourced} {ps : List Piece}

theorem Directs.relocated {word path word' path' : Token} {target : FilePath}
    (directs : Directs files word path target) (announced : word'.lexeme = word.lexeme)
    (named : path'.lexeme = path.lexeme) (file : path'.location.file = path.location.file) :
    Directs files word' path' target := by
  obtain ⟨text, string, rfl⟩ := directs.path
  exact ⟨announced.trans directs.keyword, text, named.trans string, by rw [file]⟩

theorem InPieces.relocated (pieces : InPieces files imported stream ps) : ∀ {stream' : List Sourced},
    Token.Alike (stream.map (·.token)) (stream'.map (·.token)) → ∃ ps',
      InPieces files imported stream' ps' ∧
        List.Forall₂ Declaration.Alike (declarationsOf ps) (declarationsOf ps') := by
  induction pieces with
  | done =>
    intro stream' alike
    obtain rfl := List.map_eq_nil_iff.mp (alike_nil alike)
    exact ⟨[], .done, .nil⟩
  | declaration declares _ ih =>
    intro stream' alike
    rw [List.map_append] at alike
    obtain ⟨_, _, split, front, behind⟩ := alike_append alike
    obtain ⟨written, rest, rfl, rfl, rfl⟩ := Parser.split_of_map split
    obtain ⟨d', declares, first⟩ := declares.relocated front
    obtain ⟨ps', pieces, others⟩ := ih behind
    exact ⟨_, .declaration declares pieces, .cons first others⟩
  | @opening imported target content rest ps word path directs new holds _ ih =>
    intro stream' alike
    obtain ⟨_, _, split, announced, _, further⟩ := alike_cons alike
    obtain ⟨_, _, rfl, named, file, behind⟩ := alike_cons further
    obtain ⟨word', path', rest', rfl, rfl, rfl, rfl⟩ := Parser.directive_of_map split
    obtain ⟨ps', pieces, others⟩ := @ih (tokensOf (some target) content ++ rest') (by
      rw [List.map_append, List.map_append, map_tokens_of, Token.Alike, List.map_append, List.map_append,
        behind])
    exact ⟨_, .opening (directs.relocated announced named file) new holds pieces, others⟩
  | repetition directs known _ ih =>
    intro stream' alike
    obtain ⟨_, _, split, announced, _, further⟩ := alike_cons alike
    obtain ⟨_, _, rfl, named, file, behind⟩ := alike_cons further
    obtain ⟨word', path', rest', rfl, rfl, rfl, rfl⟩ := Parser.directive_of_map split
    obtain ⟨ps', pieces, others⟩ := ih behind
    exact ⟨_, .repetition (directs.relocated announced named file) known pieces, others⟩

end Streams

section Sources

variable {files : FileTree} {file source source' : String} {tree : SchemaTree}

theorem alike_of_lexemes (lexed : (TokenStream.ofSource file source).tokens = .ok ts)
    (lexed' : (TokenStream.ofSource file source').tokens = .ok ts')
    (same : ts'.map (·.lexeme) = ts.map (·.lexeme)) : Token.Alike ts ts' := by
  have content : ∀ {source ts}, (TokenStream.ofSource file source).tokens = .ok ts →
      ts.map Token.content = (ts.map (·.lexeme)).map (·, file) := by
    intro source ts lexed
    rw [List.map_map]
    refine List.map_congr_left fun t listed => congrArg (Prod.mk t.lexeme) ?_
    apply TokenStream.of_source_located t
    rw [Parser.stream_of_tokens lexed]
    exact List.mem_map_of_mem listed
  rw [Token.Alike, content lexed, content lexed', same]

/-- What a source declares depends on its lexemes alone. -/
theorem parse_relocated (parsed : SchemaTree.parse files file source = .ok tree)
    (lexed : (TokenStream.ofSource file source).tokens = .ok ts)
    (lexed' : (TokenStream.ofSource file source').tokens = .ok ts')
    (same : ts'.map (·.lexeme) = ts.map (·.lexeme)) :
    ∃ tree', SchemaTree.parse files file source' = .ok tree' ∧ tree'.plain = tree.plain := by
  obtain ⟨named, _, ps, read, pieces, rfl⟩ := parse_iff_pieces.mp parsed
  cases lexed.symm.trans read
  have streams : Token.Alike ((tokensOf none ts).map (·.token)) ((tokensOf none ts').map (·.token)) := by
    rw [map_tokens_of, map_tokens_of]
    exact alike_of_lexemes lexed lexed' same
  obtain ⟨ps', pieces, alike⟩ := pieces.relocated streams
  exact ⟨_, parse_iff_pieces.mpr ⟨named, ts', ps', lexed', pieces, rfl⟩, plain_of_alike alike⟩

end Sources

end Grammar

end ApiSchema

/-! Sources that are printed from the same lexemes. Their tokens are read back, and they declare the same,
whatever comments and blanks they have. -/

namespace ApiSchema

open Lexer

/-- Lexemes that have a spelling. An annotation that ends in a backslash would go on in the next line. -/
def Lexeme.IsWritable : Lexeme → Prop
  | .identifier name => IsIdentifier name
  | .note text => IsLine text.toList
  | _ => True

theorem Lexeme.exists_spelling {lexeme : Lexeme} (writable : lexeme.IsWritable) :
    ∃ text, lexeme.Spells text := by
  cases lexeme with
  | mark m => exact ⟨_, .mark m⟩
  | keyword k => exact ⟨_, .keyword k⟩
  | primitive p => exact ⟨_, .primitive p⟩
  | identifier name => exact ⟨_, .identifier writable⟩
  | string content =>
    have spells := Spells.string (escapes_quoted content.toList)
    rw [String.ofList_toList] at spells
    exact ⟨_, spells⟩
  | note text =>
    have line : IsLine text.toList := writable
    have spells := Spells.note line
    rw [String.ofList_toList] at spells
    exact ⟨_, spells⟩

namespace Lexer

/-- The source is the lexemes with spacing in front, between and behind. -/
def Prints (lexemes : List Lexeme) (source : String) : Prop :=
  ∃ lead text, Spacing lead ∧ Printed lexemes text ∧ source = .ofList (lead ++ text)

variable {lexemes : List Lexeme} {source source' : String}

theorem exists_printing (writable : ∀ lexeme ∈ lexemes, lexeme.IsWritable) :
    ∃ source, Prints lexemes source := by
  have newline : Spacing ['\n'] := .blank (by decide) .none
  induction lexemes with
  | nil => exact ⟨_, [], [], .none, .none, rfl⟩
  | cons lexeme lexemes ih =>
    obtain ⟨first, others⟩ := List.forall_mem_cons.mp writable
    obtain ⟨_, _, text, _, printed, _⟩ := ih others
    obtain ⟨spelling, spells⟩ := Lexeme.exists_spelling first
    refine ⟨_, [], _, .none, .more spells newline (fun _ => List.cons_ne_nil _ _) ?_ printed, rfl⟩
    intro _ _ c behind same
    exact (List.cons_eq_cons.mp same).1.symm

/-- The tokens of a printed source are the lexemes that it was printed from, and every other printing of
them declares the same. -/
theorem printing_inverted (printed : Prints lexemes source) (again : Prints lexemes source')
    (files : FileTree) (file : String) :
    (∃ tokens, (TokenStream.ofSource file source).tokens = .ok tokens ∧ tokens.map (·.lexeme) = lexemes) ∧
      ∀ tree, SchemaTree.parse files file source = .ok tree →
        ∃ tree', SchemaTree.parse files file source' = .ok tree' ∧ tree'.plain = tree.plain := by
  obtain ⟨lead, text, leading, printed, rfl⟩ := printed
  obtain ⟨lead', text', leading', printed', rfl⟩ := again
  obtain ⟨tokens, read, same⟩ := tokens_of_printed printed leading file
  obtain ⟨tokens', read', same'⟩ := tokens_of_printed printed' leading' file
  exact ⟨⟨tokens, read, same⟩, fun tree parsed =>
    Grammar.parse_relocated parsed read read' (same'.trans same.symm)⟩

def declared : List Lexeme := [.note "hidden", .keyword .type, .identifier "A", .primitive .int]

theorem printed_declared {first second third : List Char} (behind : Spacing ('\n' :: first))
    (between : Spacing second) (within : Spacing third) (some : second ≠ []) (more : third ≠ []) :
    Printed declared ("@hidden".toList ++ ('\n' :: first ++ ("type".toList ++ (second ++
      ("A".toList ++ (third ++ ("int".toList ++ ([] ++ [])))))))) := by
  have identifier : IsIdentifier "A" :=
    ⟨⟨'A', [], rfl, by decide, nofun⟩, fun k => by cases k <;> decide, fun p => by cases p <;> decide⟩
  have note : IsLine "hidden".toList := ⟨by decide, by decide, by decide⟩
  refine .more (.note note) behind (fun _ => List.cons_ne_nil _ _) ?_ ?_
  · exact fun _ _ c rest same => (List.cons_eq_cons.mp same).1.symm
  · exact .more (.keyword .type) between (fun _ => some) nofun
      (.more (.identifier identifier) within (fun _ => more) nofun
        (.more (.primitive .int) .none (absurd rfl) nofun .none))

def tight : String := "@hidden\ntype A int"

def airy : String := "/*\n//*/@hidden\n// @b\n type\tA/**/int"

theorem airy_declares_tight : Prints declared tight ∧ Prints declared airy ∧
    ∃ tree tree', SchemaTree.parse ⟨[], []⟩ "-" tight = .ok tree ∧
      SchemaTree.parse ⟨[], []⟩ "-" airy = .ok tree' ∧ tree'.plain = tree.plain := by
  have blank : ∀ c ∈ [' ', '\t', '\r', '\n'], ∀ rest, Spacing rest → Spacing (c :: rest) :=
    fun c listed _ others => .blank listed others
  have space : Spacing [' '] := blank _ (by decide) _ .none
  have comment : Spacing "\n// @b\n ".toList :=
    blank _ (by decide) _ (.line (by decide : '\n' ∉ " @b".toList) space)
  have tight_printed : Prints declared tight :=
    ⟨[], _, .none, printed_declared (blank _ (by decide) _ .none) space space (by decide) (by decide), rfl⟩
  have airy_printed : Prints declared airy :=
    ⟨_, _, .block (by decide : ¬ ['*', '/'] <:+: "\n//".toList) .none, printed_declared comment
      (blank '\t' (by decide) _ .none) (.block (by decide : ¬ ['*', '/'] <:+: []) .none) (by decide) (by decide), rfl⟩
  have parses : (SchemaTree.parse ⟨[], []⟩ "-" tight).isOk = true := by
    simp only [SchemaTree.parse_by_chars]
    decide +kernel
  obtain ⟨tree, parsed⟩ := exists_of_is_ok parses
  obtain ⟨tree', parsed', same⟩ := (printing_inverted tight_printed airy_printed ⟨[], []⟩ "-").2 tree parsed
  exact ⟨tight_printed, airy_printed, tree, tree', parsed, parsed', same⟩

end Lexer

end ApiSchema

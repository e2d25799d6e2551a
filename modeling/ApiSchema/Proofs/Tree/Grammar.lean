import ApiSchema.Tree.Parser
import ApiSchema.Proofs.Running

/-! The grammar of declarations: which tokens are written for which tree. No rule says what may
come behind its phrase. -/

namespace ApiSchema

def FieldTree.notes : FieldTree → List Note
  | mk _ _ _ notes _ => notes

def MemberTree.fieldNames (members : List MemberTree) : List String :=
  members.filterMap fun m => match m with
    | .field f => some f.name
    | .spread .. => none

namespace Grammar

inductive Phrase where
  | type (t : TypeTree)
  | struct (t : TypeTree)
  /-- The members of a struct, and its closing brace. -/
  | members (ms : List MemberTree)
  | field (f : FieldTree)
  /-- The members of an enum, and its closing brace. -/
  | values (vs : List ValueTree)
  | argument (m : MemberTree)
  | arguments (ms : List MemberTree)

inductive Maybe (m : Mark) : List Token → Prop where
  | absent : Maybe m []
  | present {token} (written : token.lexeme = .mark m) : Maybe m [token]

def IsNote (token : Token) (note : Note) : Prop :=
  ∃ text content, token.lexeme = .note text ∧ Parser.annotationOf text = .ok (some content) ∧
    note = ⟨content, token.location⟩

abbrev Notes : List Token → List Note → Prop := List.Forall₂ IsNote

inductive Marks : Nat → List Token → Prop where
  | none : Marks 0 []
  | secret {mark word ts n} (written : mark.lexeme = .mark .exclamation)
    (named : word.lexeme.name? = some "secret") (others : Marks n ts) :
    Marks (n + 1) (mark :: word :: ts)

inductive Spreads : MemberTree → List Token → Prop where
  | named {dots word name} (written : dots.lexeme = .mark .spread)
    (named : word.lexeme.name? = some name) (capital : Parser.startsWithCapital name = true) :
    Spreads (.spread name word.location dots.location) [dots, word]

def Labels (token : Token) (text : String) : Prop :=
  token.lexeme = .string text ∨ token.lexeme.name? = some text

def anyNumber (_ : Nat) : Prop := True

def atMostOne (n : Nat) : Prop := n ≤ 1

/-- The tokens are written for the phrase, where `marks` says how many marks a field may have. -/
inductive Derives (marks : Nat → Prop) : Phrase → List Token → Prop where
  | primitive {token kind} (written : token.lexeme = .primitive kind) :
    Derives marks (.type (.primitive kind token.location)) [token]
  | reference {token name} (written : token.lexeme = .identifier name)
    (capital : Parser.startsWithCapital name = true) :
    Derives marks (.type (.reference name token.location)) [token]
  | literal {t ts} (struct : Derives marks (.struct t) ts) : Derives marks (.type t) ts
  | enum {word brace vs ts} (keyword : word.lexeme = .keyword .enum)
    (opens : brace.lexeme = .mark .leftBrace) (values : Derives marks (.values vs) ts) :
    Derives marks (.type (.enum "" vs word.location)) (word :: brace :: ts)
  | parens {left right t ts} (opens : left.lexeme = .mark .leftParen)
    (inner : Derives marks (.type t) ts) (closes : right.lexeme = .mark .rightParen) :
    Derives marks (.type t) (left :: (ts ++ [right]))
  | optional {t ts suffix} (inner : Derives marks (.type t) ts)
    (written : suffix.lexeme = .mark .question) :
    Derives marks (.type (.optional t suffix.location)) (ts ++ [suffix])
  | array {t ts suffix} (inner : Derives marks (.type t) ts)
    (written : suffix.lexeme = .mark .array) :
    Derives marks (.type (.array t suffix.location)) (ts ++ [suffix])
  | struct {brace ms ts} (opens : brace.lexeme = .mark .leftBrace)
    (members : Derives marks (.members ms) ts) (distinct : (MemberTree.fieldNames ms).Nodup) :
    Derives marks (.struct (.struct "" ms [] brace.location)) (brace :: ts)
  | closed {brace} (closes : brace.lexeme = .mark .rightBrace) : Derives marks (.members []) [brace]
  | spread {m ms written sep ts} (spread : Spreads m written) (separated : Maybe .comma sep)
    (others : Derives marks (.members ms) ts) :
    Derives marks (.members (m :: ms)) (written ++ (sep ++ ts))
  | member {f ms noted written sep ts} (annotated : Notes noted f.notes)
    (field : Derives marks (.field f) written) (separated : Maybe .comma sep)
    (others : Derives marks (.members ms) ts) :
    Derives marks (.members (.field f :: ms)) (noted ++ (written ++ (sep ++ ts)))
  | field {word colon name t ts n marked notes} (named : word.lexeme.name? = some name)
    (separated : colon.lexeme = .mark .colon) (type : Derives marks (.type t) ts)
    (secret : Marks n marked) (allowed : marks n) :
    Derives marks (.field (.mk name t (decide (0 < n)) notes word.location))
      (word :: colon :: (ts ++ marked))
  | complete {brace} (closes : brace.lexeme = .mark .rightBrace) :
    Derives marks (.values []) [brace]
  | tag {word text vs noted notes sep ts} (annotated : Notes noted notes) (labels : Labels word text)
    (separated : Maybe .comma sep) (others : Derives marks (.values vs) ts) :
    Derives marks (.values (.mk text none notes word.location :: vs)) (noted ++ word :: (sep ++ ts))
  | tagged {word text t vs noted notes written sep ts} (annotated : Notes noted notes)
    (labels : Labels word text) (data : Derives marks (.struct t) written)
    (separated : Maybe .comma sep) (others : Derives marks (.values vs) ts) :
    Derives marks (.values (.mk text (some t) notes word.location :: vs))
      (noted ++ word :: (written ++ (sep ++ ts)))
  | inherited {m ts} (spread : Spreads m ts) : Derives marks (.argument m) ts
  | own {f ts} (field : Derives marks (.field f) ts) (bare : f.notes = []) :
    Derives marks (.argument (.field f)) ts
  | none : Derives marks (.arguments []) []
  | last {m ts} (argument : Derives marks (.argument m) ts) : Derives marks (.arguments [m]) ts
  | more {m ms written comma ts} (argument : Derives marks (.argument m) written)
    (separated : comma.lexeme = .mark .comma) (others : Derives marks (.arguments ms) ts) :
    Derives marks (.arguments (m :: ms)) (written ++ comma :: ts)

inductive Announced (marks : Nat → Prop) (fallback : Location) : TypeTree → List Token → Prop where
  | silent : Announced marks fallback (.primitive .void fallback) []
  | colon {token t ts} (written : token.lexeme = .mark .colon)
    (type : Derives marks (.type t) ts) : Announced marks fallback t (token :: ts)

/-- The data of an error, which no colon needs to announce. -/
inductive Payload (marks : Nat → Prop) (fallback : Location) : TypeTree → List Token → Prop where
  | announced {t ts} (announced : Announced marks fallback t ts) : Payload marks fallback t ts
  | bare {t ts} (type : Derives marks (.type t) ts) : Payload marks fallback t ts

inductive Declaration where
  | type (d : TypeDeclaration)
  | error (e : ErrorDeclaration)
  /-- A function, and the word that announces it. -/
  | function (word : Token) (f : FunctionDeclaration)

def describes? (name : String) (note : Note) : Option Note :=
  match note.content with
  | .argument other text => if name = other then some (.describe text note.location) else none
  | _ => none

/-- The member with what the notes of its function say about it. -/
def described (notes : List Note) : MemberTree → MemberTree
  | .field (.mk name type secret own location) =>
    .field (.mk name type secret (own ++ notes.filterMap (describes? name)) location)
  | m => m

def isAboutArgument (note : Note) : Bool :=
  match note.content with
  | .argument .. => true
  | _ => false

/-- Every note about an argument names one of the members. -/
def Targets (notes : List Note) (members : List MemberTree) : Prop :=
  ∀ note ∈ notes, ∀ argument text, note.content = .argument argument text →
    argument ∈ MemberTree.fieldNames members

inductive Declares (marks : Nat → Prop) : Declaration → List Token → Prop where
  | type {noted notes word label name equals t ts} (annotated : Notes noted notes)
    (keyword : word.lexeme = .keyword .type) (named : label.lexeme.name? = some name)
    (capital : Parser.startsWithCapital name = true) (defined : Maybe .equals equals)
    (type : Derives marks (.type t) ts) :
    Declares marks (.type ⟨name, t, notes, word.location⟩)
      (noted ++ word :: label :: (equals ++ ts))
  | error {noted notes word label name t ts} (annotated : Notes noted notes)
    (keyword : word.lexeme = .keyword .error) (named : label.lexeme.name? = some name)
    (capital : Parser.startsWithCapital name = true) (data : Payload marks label.location t ts) :
    Declares marks (.error ⟨name, t, notes, word.location⟩) (noted ++ word :: label :: ts)
  | function {noted notes word label name left ms args right t ts} (annotated : Notes noted notes)
    (keyword : ∃ k, k ∈ [Keyword.fn, .get, .function] ∧ word.lexeme = .keyword k)
    (named : label.lexeme.name? = some name) (opens : left.lexeme = .mark .leftParen)
    (arguments : Derives marks (.arguments ms) args)
    (distinct : (MemberTree.fieldNames ms).Nodup) (closes : right.lexeme = .mark .rightParen)
    (targets : Targets notes ms) (returns : Announced marks right.location t ts) :
    Declares marks (.function word
        { name, members := ms.map (described notes), returns := t
          notes := notes.filter (!isAboutArgument ·)
          isGetter := word.lexeme == .keyword .get
          location := word.location })
      (noted ++ word :: label :: left :: (args ++ right :: ts))

inductive Declarations (marks : Nat → Prop) : List Declaration → List Token → Prop where
  | none : Declarations marks [] []
  | more {d ds written ts} (first : Declares marks d written) (others : Declarations marks ds ts) :
    Declarations marks (d :: ds) (written ++ ts)

/-- A function that is announced by an outdated word is warned of. -/
def Declaration.warnings : Declaration → List String
  | .function word _ =>
    if word.lexeme = .keyword .fn then []
    else [Parser.deprecationWarning word.lexeme.text word.location]
  | .type _ | .error _ => []

def Declaration.join (d : Declaration) (tree : SchemaTree) : SchemaTree :=
  let tree := { tree with warnings := d.warnings ++ tree.warnings }
  match d with
  | .type d => { tree with types := d :: tree.types }
  | .error e => { tree with errors := e :: tree.errors }
  | .function _ f => { tree with functions := f :: tree.functions }

def Declaration.addTo (schema : SchemaTree) : Declaration → SchemaTree
  | .type d => { schema with types := schema.types ++ [d] }
  | .error e => { schema with errors := schema.errors ++ [e] }
  | .function _ f => { schema with functions := schema.functions ++ [f] }

def treeOf (ds : List Declaration) : SchemaTree := ds.foldr Declaration.join {}

/-- The tokens are those of declarations, and the tree is theirs. -/
def Writes (marks : Nat → Prop) (tree : SchemaTree) (tokens : List Token) : Prop :=
  ∃ ds, Declarations marks ds tokens ∧ tree = treeOf ds

def Phrase.opens : Phrase → Lexeme → Prop
  | .type _, l => Parser.startsErrorData l = true
  | .struct _, l => l = .mark .leftBrace
  | .members _, l =>
    l = .mark .rightBrace ∨ l = .mark .spread ∨ l.name?.isSome ∨ ∃ text, l = .note text
  | .field _, l => l.name?.isSome
  | .values _, l =>
    l = .mark .rightBrace ∨ l.name?.isSome ∨ (∃ text, l = .string text) ∨ ∃ text, l = .note text
  | .argument _, l | .arguments _, l => l = .mark .spread ∨ l.name?.isSome

section Heads

variable {marks : Nat → Prop} {ts : List Token}

theorem Spreads.head {m : MemberTree} (spreads : Spreads m ts) :
    ∃ t rest, ts = t :: rest ∧ t.lexeme = .mark .spread := by
  cases spreads with
  | named written => exact ⟨_, _, rfl, written⟩

theorem Notes.head {noted written : List Token} {notes : List Note} (annotated : Notes noted notes)
    {opens : Lexeme → Prop} (note : ∀ text, opens (.note text))
    (first : ∃ t rest, written = t :: rest ∧ opens t.lexeme) :
    ∃ t rest, noted ++ written = t :: rest ∧ opens t.lexeme := by
  cases annotated with
  | nil => exact first
  | cons own others =>
    obtain ⟨text, _, written, _⟩ := own
    exact ⟨_, _, rfl, by rw [written]; exact note text⟩

theorem Labels.opens {word : Token} {text : String} (labels : Labels word text) (vs : List ValueTree) :
    Phrase.opens (.values vs) word.lexeme := by
  rcases labels with written | named
  · exact .inr (.inr (.inl ⟨_, written⟩))
  · exact .inr (.inl (by rw [named]; rfl))

theorem Derives.head {phrase : Phrase} (derived : Derives marks phrase ts) :
    phrase = .arguments [] ∨ ∃ t rest, ts = t :: rest ∧ phrase.opens t.lexeme := by
  induction derived with
  | primitive written => exact .inr ⟨_, _, rfl, by rw [Phrase.opens, written]; rfl⟩
  | reference written => exact .inr ⟨_, _, rfl, by rw [Phrase.opens, written]; rfl⟩
  | literal _ ih =>
    rcases ih with ⟨⟨⟩⟩ | ⟨t, rest, rfl, opens⟩
    exact .inr ⟨t, rest, rfl, by rw [Phrase.opens, opens]; rfl⟩
  | enum keyword => exact .inr ⟨_, _, rfl, by rw [Phrase.opens, keyword]; rfl⟩
  | parens opens => exact .inr ⟨_, _, rfl, by rw [Phrase.opens, opens]; rfl⟩
  | optional _ _ ih =>
    rcases ih with ⟨⟨⟩⟩ | ⟨t, rest, rfl, opens⟩
    exact .inr ⟨t, _, rfl, opens⟩
  | array _ _ ih =>
    rcases ih with ⟨⟨⟩⟩ | ⟨t, rest, rfl, opens⟩
    exact .inr ⟨t, _, rfl, opens⟩
  | struct opens => exact .inr ⟨_, _, rfl, opens⟩
  | closed closes => exact .inr ⟨_, _, rfl, .inl closes⟩
  | spread spread =>
    obtain ⟨t, rest, rfl, written⟩ := spread.head
    exact .inr ⟨t, _, rfl, .inr (.inl written)⟩
  | member annotated _ _ _ ih =>
    refine .inr (annotated.head (fun text => .inr (.inr (.inr ⟨text, rfl⟩))) ?_)
    rcases ih with ⟨⟨⟩⟩ | ⟨t, rest, rfl, opens⟩
    exact ⟨t, _, rfl, .inr (.inr (.inl opens))⟩
  | field named => exact .inr ⟨_, _, rfl, by rw [Phrase.opens, named]; rfl⟩
  | complete closes => exact .inr ⟨_, _, rfl, .inl closes⟩
  | tag annotated labels =>
    exact .inr (annotated.head (fun text => .inr (.inr (.inr ⟨text, rfl⟩))) ⟨_, _, rfl, labels.opens []⟩)
  | tagged annotated labels =>
    exact .inr (annotated.head (fun text => .inr (.inr (.inr ⟨text, rfl⟩))) ⟨_, _, rfl, labels.opens []⟩)
  | inherited spread =>
    obtain ⟨t, rest, rfl, written⟩ := spread.head
    exact .inr ⟨t, _, rfl, .inl written⟩
  | own _ _ ih =>
    rcases ih with ⟨⟨⟩⟩ | ⟨t, rest, rfl, opens⟩
    exact .inr ⟨t, _, rfl, .inr opens⟩
  | none => exact .inl rfl
  | last _ ih =>
    rcases ih with ⟨⟨⟩⟩ | ⟨t, rest, rfl, opens⟩
    exact .inr ⟨t, _, rfl, opens⟩
  | more _ _ _ ih =>
    rcases ih with ⟨⟨⟩⟩ | ⟨t, rest, rfl, opens⟩
    exact .inr ⟨t, _, rfl, opens⟩

theorem Declares.two_le {d : Declaration} (declares : Declares marks d ts) : 2 ≤ ts.length := by
  cases declares <;> simp only [List.length_append, List.length_cons] <;> omega

end Heads

/-- Behind some declarations a file is imported. -/
def Imports (tokens : List Token) : Prop :=
  ∃ ds written word path text further, Declarations anyNumber ds written ∧
    word.lexeme = .keyword .importing ∧ path.lexeme = .string text ∧
    tokens = written ++ word :: path :: further

end Grammar

end ApiSchema

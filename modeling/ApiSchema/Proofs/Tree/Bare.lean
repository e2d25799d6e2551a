import ApiSchema.Tree.Parser
import ApiSchema.Proofs.Running
import ApiSchema.Proofs.Token.Names

/-! Declarations as written: the names in them are words, and their structs have
members, and no fields yet. The parser returns nothing else. -/

namespace ApiSchema

open Lexer (IsWord)

mutual

def TypeTree.IsBare : TypeTree → Prop
  | .primitive .. => True
  | .reference name _ => IsWord name
  | .optional base _ | .array base _ => base.IsBare
  | .struct _ members fields _ => MemberTree.AreBare members ∧ fields = []
  | .enum _ values _ => ValueTree.AreBare values

def FieldTree.IsBare : FieldTree → Prop
  | .mk name type _ _ _ => IsWord name ∧ type.IsBare

def MemberTree.IsBare : MemberTree → Prop
  | .field f => f.IsBare
  | .spread name _ _ => IsWord name

def MemberTree.AreBare : List MemberTree → Prop
  | [] => True
  | m :: rest => m.IsBare ∧ MemberTree.AreBare rest

def ValueTree.IsBare : ValueTree → Prop
  | .mk _ none _ _ => True
  | .mk _ (some data) _ _ => data.IsBare

def ValueTree.AreBare : List ValueTree → Prop
  | [] => True
  | v :: rest => v.IsBare ∧ ValueTree.AreBare rest

end

structure SchemaTree.IsBare (tree : SchemaTree) : Prop where
  types : ∀ d ∈ tree.types, IsWord d.name ∧ d.type.IsBare
  errors : ∀ e ∈ tree.errors, IsWord e.name ∧ e.data.IsBare
  functions : ∀ f ∈ tree.functions,
    IsWord f.name ∧ MemberTree.AreBare f.members ∧ f.returns.IsBare

structure SchemaTree.Each (types : TypeDeclaration → Prop) (errors : ErrorDeclaration → Prop)
    (functions : FunctionDeclaration → Prop) (tree : SchemaTree) : Prop where
  types : ∀ d ∈ tree.types, types d
  errors : ∀ e ∈ tree.errors, errors e
  functions : ∀ f ∈ tree.functions, functions f

/-- The names among the tokens that are left are words. -/
structure ParseState.IsSpelt (s : ParseState) : Prop where
  current : ∀ token, s.current = some token → token.lexeme.IsSpelt
  rest : ∀ token, .ok token ∈ s.rest → token.lexeme.IsSpelt

namespace Parser

variable {α β : Type}

/-- From tokens whose names are spelt well, whatever the parser returns is as said, and the tokens
that it leaves are such tokens again. -/
def Yields (p : Parser α) (post : α → Prop) : Prop :=
  ∀ s : ParseState, s.IsSpelt → Within p s (fun _ => True) fun a s' => s'.IsSpelt ∧ post a

/-- The parser leaves tokens whose names are spelt well, whatever it returns. -/
class Keeps (p : Parser α) : Prop where
  yields : Yields p fun _ => True

namespace Yields

theorem bind {p : Parser α} {next : α → Parser β} {between : α → Prop} {post : β → Prop}
    (first : Yields p between) (later : ∀ a, between a → Yields (next a) post) :
    Yields (p >>= next) post := by
  intro s spelt
  apply Within.bind
  exact (first s spelt).mono fun a s' holds => later a holds.2 s' holds.1

theorem after {p : Parser α} [Keeps p] {next : α → Parser β} {post : β → Prop}
    (later : ∀ a, Yields (next a) post) : Yields (p >>= next) post :=
  Keeps.yields.bind fun a _ => later a

theorem mono {p : Parser α} {post other : α → Prop} (yields : Yields p post)
    (weaker : ∀ a, post a → other a) : Yields p other :=
  fun s spelt => (yields s spelt).mono fun a _ holds => ⟨holds.1, weaker a holds.2⟩

theorem keeps {p : Parser α} {post : α → Prop} (yields : Yields p post) : Keeps p :=
  ⟨yields.mono fun _ _ => trivial⟩

theorem map {p : Parser α} {between : α → Prop} {post : β → Prop} (first : Yields p between)
    (f : α → β) (later : ∀ a, between a → post (f a)) : Yields (f <$> p) post := by
  intro s spelt
  have holds := first s spelt
  unfold Within at *
  rw [StateT.run_map]
  cases ran : p.run s with
  | error e => trivial
  | ok r =>
    rw [ran] at holds
    exact ⟨holds.1, later _ holds.2⟩

theorem pure {a : α} {post : α → Prop} (holds : post a) : Yields (Pure.pure a) post :=
  fun _ spelt => Within.pure ⟨spelt, holds⟩

theorem throw {e : ParseFailure} {post : α → Prop} : Yields (throw e) post :=
  fun _ _ => Within.throw trivial

theorem fail {fault : ParseFault} {location : Location} {post : α → Prop} :
    Yields (fail fault location) post :=
  throw

theorem get : Yields get ParseState.IsSpelt := fun _ spelt => Within.get ⟨spelt, spelt⟩

theorem set {s : ParseState} (spelt : s.IsSpelt) : Yields (set s) fun _ => True :=
  fun _ _ => Within.set ⟨spelt, trivial⟩

theorem modify {f : ParseState → ParseState} (keeps : ∀ s, s.IsSpelt → (f s).IsSpelt) :
    Yields (modify f) fun _ => True :=
  fun s spelt => Within.modify ⟨keeps s spelt, trivial⟩

theorem run {p : Parser α} {post : α → Prop} (yields : Yields p post) {s : ParseState}
    (spelt : s.IsSpelt) {a : α} (ran : p.run' s = .ok a) : post a := by
  have holds := yields s spelt
  rw [StateT.run'_eq] at ran
  cases run : p.run s with
  | error e => rw [run] at ran; cases ran
  | ok r =>
    rw [run] at ran
    cases ran
    exact (holds.of_ok run).2

end Yields

section Steps

instance : Keeps (get : Parser ParseState) := Yields.get.keeps

instance {a : α} : Keeps (pure a : Parser α) := ⟨.pure trivial⟩

instance {fault : ParseFault} {location : Location} : Keeps (fail fault location : Parser α) :=
  ⟨.fail⟩

instance : Keeps readAhead := by
  refine ⟨Yields.get.bind fun s spelt => ?_⟩
  split
  · exact .set ⟨nofun, spelt.rest⟩
  · next token rest ahead =>
    refine .set ⟨fun _ same => ?_, fun later member => ?_⟩
    · cases same
      exact spelt.rest token (ahead ▸ List.mem_cons_self ..)
    · exact spelt.rest later (ahead ▸ List.mem_cons_of_mem _ member)
  · exact .throw

theorem current_spelt : Yields current fun token => token.lexeme.IsSpelt := by
  apply Yields.get.bind
  intro s spelt
  split
  · next token now => exact .pure (spelt.current token now)
  · exact .fail

instance : Keeps current := current_spelt.keeps

theorem advance_spelt : Yields advance fun token => token.lexeme.IsSpelt := by
  apply current_spelt.bind
  intro token spelt
  refine .bind (.modify fun _ kept => ⟨kept.current, kept.rest⟩) fun _ _ => ?_
  exact .after fun _ => .pure spelt

instance : Keeps advance := advance_spelt.keeps

instance {lexeme : Lexeme} : Keeps (sees lexeme) := ⟨.after fun _ => .pure trivial⟩

instance {m : Mark} : Keeps (seesMark m) := inferInstanceAs (Keeps (sees _))

instance {m : Mark} : Keeps (expectMark m) := by
  refine ⟨.after fun token => ?_⟩
  split
  · exact Keeps.yields
  · exact .fail

instance {m : Mark} : Keeps (acceptMark m) := by
  refine ⟨.after fun seen => ?_⟩
  split
  · exact .after fun _ => .pure trivial
  · exact .pure trivial

theorem expect_name_spelt : Yields expectName fun (name, _) => IsWord name := by
  apply current_spelt.bind
  intro token spelt
  split
  · next name named => exact .after fun _ => .pure (spelt name named)
  · exact .fail

instance : Keeps expectName := expect_name_spelt.keeps

instance {text : String} {location : Location} : Keeps (noteOf text location) := by
  constructor
  unfold noteOf
  split
  · exact .pure trivial
  · exact .throw
  · exact .fail

instance {fuel : Nat} : Keeps (acceptAnnotations fuel) := by
  constructor
  induction fuel with
  | zero => exact .pure trivial
  | succ fuel ih =>
    apply Yields.after
    intro s
    split
    · apply Yields.after
      intro _
      apply Yields.after
      intro note
      exact .bind (.modify fun _ kept => ⟨kept.current, kept.rest⟩) fun _ _ => ih
    · exact .pure trivial

instance : Keeps collectAnnotations := ⟨.after fun _ => Keeps.yields⟩

instance : Keeps takeAnnotations := by
  constructor
  apply Yields.get.bind
  intro s spelt
  exact .bind (.set ⟨spelt.current, spelt.rest⟩) fun _ _ => .pure trivial

instance : Keeps checkNoAnnotations := by
  refine ⟨.after fun s => ?_⟩
  split
  · exact .pure trivial
  · exact .fail

instance {name : String} {location : Location} : Keeps (requireTypeName name location) := by
  constructor
  unfold requireTypeName
  split
  · exact .pure trivial
  · exact .fail

instance {fuel : Nat} {secret : Bool} : Keeps (parseFieldMarks fuel secret) := by
  constructor
  induction fuel generalizing secret with
  | zero => exact .pure trivial
  | succ fuel ih =>
    apply Yields.after
    intro marked
    split
    · apply Yields.after
      rintro ⟨name, location⟩
      dsimp only
      split
      · exact ih
      · exact .fail
    · exact .pure trivial

instance : Keeps remainingFuel := ⟨.after fun _ => .pure trivial⟩

instance {files : FileTree} : Keeps (parseImport files) := by
  refine ⟨.after fun _ => .after fun _ => .after fun token => ?_⟩
  split
  · next path _ =>
    extract_lets file
    refine .bind (.modify fun _ kept => ⟨kept.current, kept.rest⟩) fun _ _ => .after fun s => ?_
    split
    · exact Keeps.yields
    · split
      · next text _ =>
        refine .bind (.modify fun s kept => ⟨kept.current, fun later member => ?_⟩)
          fun _ _ => Keeps.yields
        rcases List.mem_append.mp member with new | old
        · exact TokenStream.of_source_spelt later new
        · exact kept.rest later old
      · exact .fail
      · exact .throw
  · exact .fail

end Steps

theorem parse_suffixes_bare (fuel : Nat) {type : TypeTree} (bare : type.IsBare) :
    Yields (parseSuffixes fuel type) TypeTree.IsBare := by
  induction fuel generalizing type with
  | zero => exact .pure bare
  | succ fuel ih =>
    apply Yields.after
    intro s
    split
    · exact .after fun _ => ih bare
    · exact .after fun _ => ih bare
    · exact .pure bare

theorem parse_spread_bare : Yields parseSpread MemberTree.IsBare := by
  apply Yields.after
  intro _
  apply Yields.after
  intro dots
  apply expect_name_spelt.bind
  rintro ⟨name, location⟩ spelt
  exact .after fun _ => .pure spelt

structure Bare (fuel : Nat) : Prop where
  type : Yields (parseType fuel) TypeTree.IsBare
  struct : Yields (parseStruct fuel) TypeTree.IsBare
  members : ∀ seen, Yields (parseMembers fuel seen) MemberTree.AreBare
  field : Yields (parseField fuel) FieldTree.IsBare
  values : Yields (parseValues fuel) ValueTree.AreBare
  arguments : ∀ seen, Yields (parseArguments fuel seen) MemberTree.AreBare

variable {fuel : Nat}

theorem parse_type_bare (bare : Bare fuel) : Yields (parseType (fuel + 1)) TypeTree.IsBare := by
  unfold parseType
  apply Yields.after
  intro _
  apply current_spelt.bind
  intro token spelt
  extract_lets suffixed
  have ends : ∀ base, base.IsBare → Yields (suffixed base) TypeTree.IsBare :=
    fun base holds => parse_suffixes_bare fuel holds
  split
  · exact bare.struct.bind ends
  · apply Yields.after
    intro _
    apply Yields.after
    intro _
    exact bare.values.bind fun values holds => ends _ holds
  · exact .after fun _ => ends _ trivial
  · apply Yields.after
    intro _
    apply bare.type.bind
    intro type holds
    exact .after fun _ => ends _ holds
  · split
    · exact .bind .fail fun base (holds : base.IsBare) => ends base holds
    · next name named =>
      apply Yields.after
      intro _
      exact .after fun _ => ends _ (spelt name named)

theorem parse_struct_bare (bare : Bare fuel) : Yields (parseStruct (fuel + 1)) TypeTree.IsBare := by
  unfold parseStruct
  apply Yields.after
  intro brace
  exact (bare.members []).bind fun members holds => .pure ⟨holds, rfl⟩

theorem parse_members_bare (bare : Bare fuel) (seen : List String) :
    Yields (parseMembers (fuel + 1) seen) MemberTree.AreBare := by
  unfold parseMembers
  apply Yields.after
  intro _
  apply Yields.after
  intro closes
  split
  · apply Yields.after
    intro _
    exact .after fun _ => .pure trivial
  · apply Yields.after
    intro spreads
    split
    · apply parse_spread_bare.bind
      intro member holds
      apply Yields.after
      intro _
      exact (bare.members seen).bind fun others rest => .pure ⟨holds, rest⟩
    · apply bare.field.bind
      intro field holds
      extract_lets continued
      have ends : ∀ u, Yields (continued u) MemberTree.AreBare := by
        intro u
        apply Yields.after
        intro _
        exact (bare.members _).bind fun others rest => .pure ⟨holds, rest⟩
      split
      · exact .after ends
      · exact ends ()

theorem parse_field_bare (bare : Bare fuel) : Yields (parseField (fuel + 1)) FieldTree.IsBare := by
  unfold parseField
  apply expect_name_spelt.bind
  rintro ⟨name, location⟩ spelt
  apply Yields.after
  intro _
  apply Yields.after
  intro notes
  apply bare.type.bind
  intro type holds
  exact .after fun _ => .pure ⟨spelt, holds⟩

theorem parse_values_bare (bare : Bare fuel) : Yields (parseValues (fuel + 1)) ValueTree.AreBare := by
  unfold parseValues
  apply Yields.after
  intro _
  apply Yields.after
  intro closes
  split
  · apply Yields.after
    intro _
    exact .after fun _ => .pure trivial
  · apply Yields.after
    intro s
    extract_lets continued
    have ends : ∀ written, Yields (continued written) ValueTree.AreBare := by
      rintro ⟨text, location⟩
      apply Yields.after
      intro notes
      apply Yields.after
      intro opens
      extract_lets closed
      have last : ∀ data, (∀ type ∈ data, TypeTree.IsBare type) →
          Yields (closed data) ValueTree.AreBare := by
        intro data holds
        apply Yields.after
        intro _
        apply bare.values.bind
        intro others rest
        refine .pure ⟨?_, rest⟩
        cases data with
        | none => trivial
        | some type => exact holds type rfl
      split
      · apply Yields.bind (bare.struct.map some fun type holds other same => ?_) last
        cases same
        exact holds
      · have none : Yields (Pure.pure none) fun data : Option TypeTree =>
            ∀ type ∈ data, TypeTree.IsBare type := .pure nofun
        exact none.bind last
    split
    · exact .after fun _ => .after ends
    · exact .after ends

theorem parse_arguments_bare (bare : Bare fuel) (seen : List String) :
    Yields (parseArguments (fuel + 1) seen) MemberTree.AreBare := by
  unfold parseArguments
  apply Yields.after
  intro closes
  split
  · exact .pure trivial
  · apply Yields.after
    intro spreads
    split
    · apply parse_spread_bare.bind
      intro member holds
      apply Yields.after
      intro more
      split
      · exact (bare.arguments seen).bind fun others rest => .pure ⟨holds, rest⟩
      · exact .pure ⟨holds, trivial⟩
    · apply bare.field.bind
      intro field holds
      extract_lets continued
      have ends : ∀ u, Yields (continued u) MemberTree.AreBare := by
        intro u
        apply Yields.after
        intro more
        split
        · exact (bare.arguments _).bind fun others rest => .pure ⟨holds, rest⟩
        · exact .pure ⟨holds, trivial⟩
      split
      · exact .after ends
      · exact ends ()

theorem parsers_bare (fuel : Nat) : Bare fuel := by
  induction fuel with
  | zero =>
    constructor
    · exact .after fun _ => .fail
    · exact .after fun _ => .fail
    · exact fun _ => .after fun _ => .fail
    · exact .after fun _ => .fail
    · exact .after fun _ => .fail
    · exact fun _ => .after fun _ => .fail
  | succ fuel ih =>
    exact ⟨parse_type_bare ih, parse_struct_bare ih, parse_members_bare ih, parse_field_bare ih,
      parse_values_bare ih, parse_arguments_bare ih⟩

theorem parse_type_here_bare : Yields parseTypeHere TypeTree.IsBare := by
  apply Yields.after
  intro fuel
  exact (parsers_bare fuel).type

theorem parse_type_declaration_bare :
    Yields parseTypeDeclaration fun d => IsWord d.name ∧ d.type.IsBare := by
  apply Yields.after
  intro word
  apply expect_name_spelt.bind
  rintro ⟨name, location⟩ spelt
  dsimp -zeta only
  extract_lets named
  have ends : ∀ u, Yields (named u) fun d => IsWord d.name ∧ d.type.IsBare := by
    intro u
    apply Yields.after
    intro _
    apply Yields.after
    intro notes
    exact parse_type_here_bare.bind fun type holds => .pure ⟨spelt, holds⟩
  split
  · exact ends ()
  · exact .after ends

theorem parse_error_declaration_bare :
    Yields parseErrorDeclaration fun e => IsWord e.name ∧ e.data.IsBare := by
  apply Yields.after
  intro word
  apply expect_name_spelt.bind
  rintro ⟨name, location⟩ spelt
  dsimp -zeta only
  extract_lets named
  have ends : ∀ u, Yields (named u) fun e => IsWord e.name ∧ e.data.IsBare := by
    intro u
    apply Yields.after
    intro notes
    apply Yields.after
    intro colon
    apply Yields.after
    intro s
    have last : ∀ data : TypeTree, data.IsBare → Yields
        (Pure.pure ⟨name, data, notes, word.location⟩ : Parser ErrorDeclaration)
        fun e => IsWord e.name ∧ e.data.IsBare := fun data holds => .pure ⟨spelt, holds⟩
    split
    · exact parse_type_here_bare.bind last
    · split
      · exact parse_type_here_bare.bind last
      · have void : Yields (Pure.pure (.primitive .void location)) TypeTree.IsBare := .pure trivial
        exact void.bind last
  split
  · exact ends ()
  · exact .after ends

theorem describe_argument_bare {name : String} {note : Note} {members : List MemberTree} :
    ∀ {described}, describeArgument name note members = some described →
      MemberTree.AreBare members → MemberTree.AreBare described := by
  induction members with
  | nil => intro described found; cases found
  | cons m rest ih =>
    intro described found bare
    cases m with
    | field f =>
      simp only [describeArgument] at found
      split at found
      · cases found
        cases f
        exact bare
      · obtain ⟨others, described, rfl⟩ := Option.map_eq_some_iff.mp found
        exact ⟨bare.1, ih described bare.2⟩
    | spread target nameLocation location =>
      simp only [describeArgument] at found
      obtain ⟨others, described, rfl⟩ := Option.map_eq_some_iff.mp found
      exact ⟨bare.1, ih described bare.2⟩

theorem distribute_notes_bare (notes : List Note) {members : List MemberTree}
    (bare : MemberTree.AreBare members) :
    Yields (distributeNotes notes members) fun result => MemberTree.AreBare result.2 := by
  induction notes generalizing members with
  | nil => exact .pure bare
  | cons note rest ih =>
    unfold distributeNotes
    split
    · split
      · next described => exact ih (describe_argument_bare described bare)
      · exact .fail
    · exact (ih bare).bind fun result holds => .pure holds

theorem parse_function_declaration_bare : Yields parseFunctionDeclaration fun f =>
    IsWord f.name ∧ MemberTree.AreBare f.members ∧ f.returns.IsBare := by
  apply Yields.after
  intro notes
  apply Yields.after
  intro word
  dsimp -zeta only
  extract_lets warned
  have ends : ∀ u, Yields (warned u) fun f =>
      IsWord f.name ∧ MemberTree.AreBare f.members ∧ f.returns.IsBare := by
    intro u
    apply expect_name_spelt.bind
    rintro ⟨name, location⟩ spelt
    apply Yields.after
    intro _
    apply Yields.after
    intro fuel
    apply ((parsers_bare fuel).arguments []).bind
    intro members written
    apply Yields.after
    intro closing
    apply (distribute_notes_bare notes written).bind
    intro ⟨others, described⟩ bare
    apply Yields.after
    intro colon
    have last : ∀ returns : TypeTree, returns.IsBare → Yields
        (Pure.pure {
          name, members := described, returns, notes := others
          isGetter := word.lexeme == .keyword .get
          location := word.location } : Parser FunctionDeclaration)
        fun f => IsWord f.name ∧ MemberTree.AreBare f.members ∧ f.returns.IsBare :=
      fun returns holds => .pure ⟨spelt, bare, holds⟩
    split
    · exact parse_type_here_bare.bind last
    · have void : Yields (Pure.pure (.primitive .void closing.location)) TypeTree.IsBare :=
        .pure trivial
      exact void.bind last
  split
  · exact .bind (.modify fun _ kept => ⟨kept.current, kept.rest⟩) fun u _ => ends u
  · exact ends ()

theorem all_append {holds : α → Prop} {declarations : List α} {d : α}
    (all : ∀ d ∈ declarations, holds d) (new : holds d) : ∀ d' ∈ declarations ++ [d], holds d' := by
  intro other member
  rcases List.mem_append.mp member with old | last
  · exact all other old
  · exact List.mem_singleton.mp last ▸ new

section Declarations

variable {types : TypeDeclaration → Prop} {errors : ErrorDeclaration → Prop}
  {functions : FunctionDeclaration → Prop} (type : Yields parseTypeDeclaration types)
  (error : Yields parseErrorDeclaration errors)
  (function : Yields parseFunctionDeclaration functions)

include type error function

theorem parse_declarations_each (files : FileTree) (fuel : Nat) {schema : SchemaTree}
    (each : schema.Each types errors functions) :
    Yields (parseDeclarations files fuel schema) (SchemaTree.Each types errors functions) := by
  induction fuel generalizing schema with
  | zero => exact .pure each
  | succ fuel ih =>
    apply Yields.after
    intro s
    split
    · exact .pure each
    · apply Yields.after
      intro _
      apply Yields.after
      intro s
      have further : Yields parseFunctionDeclaration fun f => SchemaTree.Each types errors functions
          { schema with functions := schema.functions ++ [f] } :=
        function.mono fun f holds => ⟨each.types, each.errors, all_append each.functions holds⟩
      split
      · exact .after fun _ => .pure each
      · split
        · exact type.bind fun d holds => ih ⟨all_append each.types holds, each.errors, each.functions⟩
        · exact error.bind fun e holds => ih ⟨each.types, all_append each.errors holds, each.functions⟩
        · exact further.bind fun f holds => ih holds
        · exact further.bind fun f holds => ih holds
        · exact further.bind fun f holds => ih holds
        · exact .after fun _ => ih each
        · exact .fail

theorem each_of_parse {files : FileTree} {file source : String} {tree : SchemaTree}
    (parsed : SchemaTree.parse files file source = .ok tree) : tree.Each types errors functions := by
  have empty : SchemaTree.Each types errors functions {} := ⟨nofun, nofun, nofun⟩
  unfold SchemaTree.parse at parsed
  extract_lets imported start run begin at parsed
  have each : Yields run (SchemaTree.Each types errors functions) := by
    apply Yields.after
    intro _
    apply (parse_declarations_each type error function files _ empty).bind
    intro schema each
    exact .after fun _ => .pure ⟨each.types, each.errors, each.functions⟩
  split at parsed
  · cases parsed
  · refine each.run (s := start) ⟨fun token none => ?_, TokenStream.of_source_spelt⟩ parsed
    cases none

end Declarations

end Parser

theorem SchemaTree.bare_of_parse {files : FileTree} {file source : String} {tree : SchemaTree}
    (parsed : SchemaTree.parse files file source = .ok tree) : tree.IsBare := by
  obtain ⟨types, errors, functions⟩ := Parser.each_of_parse Parser.parse_type_declaration_bare
    Parser.parse_error_declaration_bare Parser.parse_function_declaration_bare parsed
  exact ⟨types, errors, functions⟩

end ApiSchema

import ApiSchema.Proofs.Tree.Accepting
import ApiSchema.Proofs.Text.Characters
import ApiSchema.Proofs.Tree.Opening

/-! The parser accepts exactly what the grammar derives, and reads only one tree from it. A field may
have its mark more than once. -/

namespace ApiSchema

namespace Parser

open Grammar

def whole (files : FileTree) (fuel : Nat) : Parser SchemaTree := do
  readAhead
  let schema ← parseDeclarations files fuel {}
  return { schema with warnings := (← get).warnings }

def start (file : String) (imported : List FilePath) (tokens : TokenStream) : ParseState where
  current := none
  rest := tokens
  last := ⟨file, .start⟩
  pending := []
  warnings := []
  imported

/-- A source is parsed by running that parser, unless its file cannot be named. -/
theorem parse_eq (files : FileTree) (file source : String)
    (named : file = "-" ∨ FileTree.hasNull (FilePath.ofText file) = false) :
    SchemaTree.parse files file source =
      (whole files (source.length + files.totalSize + 1)).run' (start file
        (if file = "-" then [] else [files.resolve (FilePath.ofText file)])
        (TokenStream.ofSource file source)) := by
  unfold SchemaTree.parse
  rw [if_neg (by rcases named with rfl | plain <;> simp [*])]
  rfl

theorem read_ahead_start (file : String) (imported : List FilePath) (tokens : List Token) :
    readAhead.run (start file imported (tokens.map .ok)) =
      .ok (⟨⟩, View.state ⟨tokens, [], []⟩ ⟨file, .start⟩ imported) := by
  cases tokens <;> rfl

variable {tokens : List Token} {tree : SchemaTree}

theorem extends_empty {ds : List Declaration} (behind : Extends {} ds tree) :
    { tree with warnings := (treeOf ds).warnings } = treeOf ds := by
  obtain ⟨types, errors, functions⟩ := behind
  rw [types, errors, functions]
  rfl

theorem whole_run (files : FileTree) (fuel : Nat) (file : String) (imported : List FilePath)
    (tokens : List Token) :
    (whole files fuel).run' (start file imported (tokens.map .ok)) =
      ((parseDeclarations files fuel {}).run (View.state ⟨tokens, [], []⟩ ⟨file, .start⟩ imported)).map
        fun r => { r.1 with warnings := r.2.warnings } := by
  rw [whole, StateT.run'_eq, StateT.run_bind, read_ahead_start]
  change (fun x : SchemaTree × ParseState => x.1) <$>
    ((parseDeclarations files fuel {} >>= fun schema => get >>= fun s =>
      pure { schema with warnings := s.warnings } : Parser SchemaTree).run _) = _
  rw [StateT.run_bind]
  cases (parseDeclarations files fuel {}).run (View.state ⟨tokens, [], []⟩ ⟨file, .start⟩ imported) <;> rfl

theorem declarations_of_run {files : FileTree} (fuel : Nat) :
    ∀ {schema tokens warnings imported last tree s}, tokens.length < 2 * fuel → ¬ Imports tokens →
      (parseDeclarations files fuel schema).run (View.state ⟨tokens, [], warnings⟩ last imported) =
        .ok (tree, s) →
      ∃ ds, Declarations anyNumber ds tokens ∧ Extends schema ds tree ∧
        s.warnings = warnings ++ (treeOf ds).warnings := by
  induction fuel with
  | zero => exact fun enough => absurd enough (Nat.not_lt_zero _)
  | succ fuel ih =>
    intro schema tokens warnings imported last tree s enough single ran
    have directive : ∀ {word path text rest}, tokens = word :: path :: rest →
        word.lexeme = .keyword .importing → path.lexeme = .string text → Imports tokens :=
      fun split keyword string => ⟨[], [], _, _, _, _, .none, keyword, string, split⟩
    cases stepped_of_run ran with
    | done empty same warned =>
      dsimp only at same warned
      subst empty same
      exact ⟨[], .none, ⟨(List.append_nil _).symm, (List.append_nil _).symm, (List.append_nil _).symm⟩,
        by rw [warned]; exact (List.append_nil _).symm⟩
    | @declared d written rest _ split declares further =>
      subst split
      have long := declares.two_le
      have shorter : rest.length < 2 * fuel := by
        rw [List.length_append] at enough
        omega
      obtain ⟨ds, declared, behind, warned⟩ :=
        ih shorter (fun imports => single (Imports.behind declares imports)) further
      refine ⟨d :: ds, .more declares declared, behind.cons, ?_⟩
      rw [warned, warnings_cons, List.append_assoc]
    | again split keyword string => exact absurd (directive split keyword string) single
    | opened split keyword string => exact absurd (directive split keyword string) single

theorem writes_of_whole {files : FileTree} {fuel : Nat} (enough : tokens.length < 2 * fuel)
    (single : ¬ Imports tokens) {file : String} {imported : List FilePath}
    (parsed : (whole files fuel).run' (start file imported (tokens.map .ok)) = .ok tree) :
    Writes anyNumber tree tokens := by
  rw [whole_run] at parsed
  cases ran : (parseDeclarations files fuel {}).run
      (View.state ⟨tokens, [], []⟩ ⟨file, .start⟩ imported) with
  | error e =>
    rw [ran] at parsed
    cases parsed
  | ok r =>
    obtain ⟨ds, declared, behind, warned⟩ := declarations_of_run fuel enough single ran
    rw [ran] at parsed
    cases parsed
    refine ⟨ds, declared, ?_⟩
    dsimp only
    rw [warned]
    exact extends_empty behind

theorem whole_of_writes {marks : Nat → Prop} (files : FileTree) {fuel : Nat}
    (enough : tokens.length < 2 * fuel) (written : Writes marks tree tokens) (file : String)
    (imported : List FilePath) :
    (whole files fuel).run' (start file imported (tokens.map .ok)) = .ok tree := by
  obtain ⟨ds, declared, rfl⟩ := written
  obtain ⟨tree, behind, takes⟩ := @takes_declarations _ _ files ds declared fuel {} [] enough
  obtain ⟨last, ran⟩ := takes ⟨file, .start⟩ imported
  rw [whole_run, ran]
  exact congrArg Except.ok (extends_empty behind)

end Parser

namespace Grammar

variable {marks : Nat → Prop} {tokens ts : List Token} {tree tree' : SchemaTree}

theorem Writes.unique (first : Writes marks tree tokens) (second : Writes marks tree' tokens) :
    tree = tree' := by
  have enough : tokens.length < 2 * (tokens.length + 1) := by omega
  have parsed := Parser.whole_of_writes ⟨[], []⟩ enough first "-" []
  rw [Parser.whole_of_writes ⟨[], []⟩ enough second "-" []] at parsed
  exact (Except.ok.inj parsed).symm

/-- From tokens that hold no import directive, the parser returns the tree that they are written for,
and nothing else. No tokens are written for two trees. -/
theorem parses_exactly (files : FileTree) (tokens : List Token) (single : ¬ Imports tokens) :
    (∀ file imported fuel tree, tokens.length < 2 * fuel →
      ((Parser.whole files fuel).run' (Parser.start file imported (tokens.map .ok)) = .ok tree ↔
        Writes anyNumber tree tokens)) ∧
    (∀ file source tree, (file = "-" ∨ FileTree.hasNull (FilePath.ofText file) = false) →
      (TokenStream.ofSource file source).tokens = .ok tokens →
        (SchemaTree.parse files file source = .ok tree ↔ Writes anyNumber tree tokens)) ∧
    ∀ ts tree tree', Writes anyNumber tree ts → Writes anyNumber tree' ts → tree = tree' := by
  have exact : ∀ file imported fuel tree, tokens.length < 2 * fuel →
      ((Parser.whole files fuel).run' (Parser.start file imported (tokens.map .ok)) = .ok tree ↔
        Writes anyNumber tree tokens) := fun file imported fuel tree enough =>
    ⟨Parser.writes_of_whole enough single, fun written =>
      Parser.whole_of_writes files enough written file imported⟩
  refine ⟨exact, fun file source tree named read => ?_, fun _ _ _ first second => first.unique second⟩
  have stream := Parser.stream_of_tokens read
  have short := Parser.read_length_le file (source.length + 1) (.ofSource source)
  change (TokenStream.ofSource file source).length ≤ _ at short
  rw [stream, List.length_map] at short
  rw [Parser.parse_eq files file source named, stream]
  exact exact file _ _ tree (by omega)

theorem not_imports (plain : ∀ t ∈ tokens, t.lexeme ≠ .keyword .importing) : ¬ Imports tokens := by
  rintro ⟨_, written, word, path, _, further, _, keyword, _, rfl⟩
  exact plain word (List.mem_append_right _ (List.mem_cons_self ..)) keyword

def accounts : String :=
  "error Missing
error Denied enum \x7b late by \x7b days: int? !secret \x7d \x7d
@arg id to find\nget user(id: int, ...Page): (User)"

theorem accounts_written : ∃ tokens tree,
    (TokenStream.ofSource "-" accounts).tokens = .ok tokens ∧
      SchemaTree.parse ⟨[], []⟩ "-" accounts = .ok tree ∧ Writes anyNumber tree tokens := by
  have checked : ((TokenStream.ofSource "-" accounts).tokens.toOption.map fun tokens =>
      decide (∀ t ∈ tokens, t.lexeme ≠ .keyword .importing)) = some true := by
    simp only [TokenStream.of_source_by_chars]
    decide +kernel
  have parses : (SchemaTree.parse ⟨[], []⟩ "-" accounts).isOk = true := by
    simp only [SchemaTree.parse_by_chars]
    decide +kernel
  obtain ⟨tokens, read, plain⟩ := Option.map_eq_some_iff.mp checked
  obtain ⟨tree, parsed⟩ := exists_of_is_ok parses
  have read := ok_of_to_option read
  have single := not_imports (of_decide_eq_true plain)
  exact ⟨tokens, tree, read, parsed,
    ((parses_exactly ⟨[], []⟩ tokens single).2.1 "-" accounts tree (.inl rfl) read).mp parsed⟩

section Marks

def count (m : Mark) (ts : List Token) : Nat := ts.countP (·.lexeme == .mark m)

variable {m : Mark}

@[simp] theorem count_nil : count m [] = 0 := rfl

@[simp] theorem count_append (first second : List Token) :
    count m (first ++ second) = count m first + count m second := List.countP_append

@[simp] theorem count_cons (t : Token) (ts : List Token) :
    count m (t :: ts) = count m ts + if t.lexeme = .mark m then 1 else 0 := by
  simp [count, List.countP_cons]

theorem count_notes {noted : List Token} {notes : List Note} (annotated : Notes noted notes) :
    count m noted = 0 := by
  induction annotated with
  | nil => rfl
  | cons own _ ih =>
    obtain ⟨text, _, written, _⟩ := own
    simp [ih, written]

theorem named_not_mark {word : Token} {name : String} (named : word.lexeme.name? = some name) :
    word.lexeme ≠ .mark m := by
  intro mark
  rw [mark] at named
  cases named

theorem label_not_mark {word : Token} {text : String} (labels : Labels word text) :
    word.lexeme ≠ .mark m := by
  rcases labels with string | named
  · rw [string]
    exact nofun
  · exact named_not_mark named

theorem count_maybe {m' : Mark} {written : List Token} (maybe : Maybe m' written) (other : m' ≠ m) :
    count m written = 0 := by
  cases maybe with
  | absent => rfl
  | present written => simp [written, other]

theorem count_spread {member : MemberTree} (spreads : Spreads member ts) (other : m ≠ .spread) :
    count m ts = 0 := by
  cases spreads with
  | named written named => simp [written, named_not_mark named, Ne.symm other]

theorem count_marks {n : Nat} (marked : Marks n ts) :
    count .exclamation ts = n ∧ count .colon ts = 0 := by
  induction marked with
  | none => exact ⟨rfl, rfl⟩
  | secret written named _ ih => simp [written, named_not_mark named, ih]

theorem marks_le_colons {phrase : Phrase} (derived : Derives atMostOne phrase ts) :
    count .exclamation ts ≤ count .colon ts := by
  have commaOnly : ∀ {sep}, Maybe .comma sep → count .exclamation sep = count .colon sep := by
    intro sep separated
    rw [count_maybe separated (by decide), count_maybe separated (by decide)]
  induction derived with
  | primitive written => simp [written]
  | reference written => simp [written]
  | literal _ ih => exact ih
  | enum keyword opens _ ih => simpa [keyword, opens] using ih
  | parens opens _ closes ih => simpa [opens, closes] using ih
  | optional _ written ih => simpa [written] using ih
  | array _ written ih => simpa [written] using ih
  | struct opens _ _ ih => simpa [opens] using ih
  | closed closes => simp [closes]
  | spread spread separated _ ih =>
    simpa [count_spread spread, count_maybe separated] using ih
  | member annotated _ separated _ first ih =>
    simp only [count_append, count_notes annotated, commaOnly separated]
    omega
  | field named separated _ secret allowed ih =>
    obtain ⟨marks, colons⟩ := count_marks secret
    simp only [count_cons, count_append, marks, colons, separated, named_not_mark named]
    unfold atMostOne at allowed
    simp
    omega
  | complete closes => simp [closes]
  | tag annotated labels separated _ ih =>
    simpa [count_notes annotated, label_not_mark labels, count_maybe separated] using ih
  | tagged annotated labels _ separated _ first ih =>
    simp only [count_append, count_cons, count_notes annotated, label_not_mark labels,
      commaOnly separated, if_false]
    omega
  | inherited spread => simp [count_spread spread]
  | own _ _ ih => exact ih
  | none => exact Nat.le_refl _
  | last _ ih => exact ih
  | more _ separated _ first ih =>
    simp only [count_append, count_cons, separated]
    simp
    omega

theorem marks_le_colons_announced {fallback : Location} {t : TypeTree}
    (announced : Announced atMostOne fallback t ts) : count .exclamation ts ≤ count .colon ts := by
  cases announced with
  | silent => exact Nat.le_refl _
  | colon written type =>
    have inside := marks_le_colons type
    simp only [count_cons, written]
    simp
    omega

theorem marks_le_colons_declared {d : Declaration} (declared : Declares atMostOne d ts) :
    count .exclamation ts ≤ count .colon ts := by
  cases declared with
  | type annotated keyword named _ defined type =>
    have inside := marks_le_colons type
    simp only [count_append, count_cons, count_notes annotated, keyword, named_not_mark named]
    rw [count_maybe defined (by decide), count_maybe defined (by decide)]
    simpa using inside
  | @error _ _ _ _ _ _ ts annotated keyword named _ data =>
    have inside : count .exclamation ts ≤ count .colon ts := by
      cases data with
      | announced announced => exact marks_le_colons_announced announced
      | bare type => exact marks_le_colons type
    simpa [count_notes annotated, keyword, named_not_mark named] using inside
  | function annotated keyword named opens arguments _ closes _ returns =>
    obtain ⟨k, _, keyword⟩ := keyword
    have inside := marks_le_colons arguments
    have behind := marks_le_colons_announced returns
    simp only [count_append, count_cons, count_notes annotated, keyword, named_not_mark named, opens,
      closes]
    simp
    omega

theorem marks_le_colons_written (written : Writes atMostOne tree tokens) :
    count .exclamation tokens ≤ count .colon tokens := by
  obtain ⟨ds, declared, _⟩ := written
  induction declared generalizing tree with
  | none => exact Nat.le_refl _
  | more first _ ih =>
    rw [count_append, count_append]
    exact Nat.add_le_add (marks_le_colons_declared first) (ih rfl)

/-- A field is accepted that is marked as secret twice, and so is a type about whose arguments,
which it does not have, something is said. -/
theorem more_accepted :
    (∃ tokens tree,
      (TokenStream.ofSource "-" "type A \x7b a: int !secret !secret \x7d").tokens = .ok tokens ∧
        SchemaTree.parse ⟨[], []⟩ "-" "type A \x7b a: int !secret !secret \x7d" = .ok tree ∧
          ∀ tree, ¬ Writes atMostOne tree tokens) ∧
    ((SchemaTree.parse ⟨[], []⟩ "-" "@arg x y\ntype A int").toOption.map fun tree =>
      (tree.types.map fun d => d.notes.map (·.content), tree.functions.length)) =
        some ([[.argument "x" "y"]], 0) := by
  have counted : ((TokenStream.ofSource "-" "type A \x7b a: int !secret !secret \x7d").tokens.toOption.map
      fun tokens => (count .exclamation tokens, count .colon tokens)) = some (2, 1) := by
    simp only [TokenStream.of_source_by_chars]
    decide +kernel
  have parses : (SchemaTree.parse ⟨[], []⟩ "-" "type A \x7b a: int !secret !secret \x7d").isOk = true := by
    simp only [SchemaTree.parse_by_chars]
    decide +kernel
  refine ⟨?_, by decide +kernel⟩
  obtain ⟨tokens, read, counts⟩ := Option.map_eq_some_iff.mp counted
  obtain ⟨tree, parsed⟩ := exists_of_is_ok parses
  obtain ⟨marks, colons⟩ := Prod.mk.inj counts
  refine ⟨tokens, tree, ok_of_to_option read, parsed, fun tree written => ?_⟩
  have fewer := marks_le_colons_written written
  omega

end Marks

end Grammar

end ApiSchema

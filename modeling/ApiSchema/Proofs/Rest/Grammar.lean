import ApiSchema.Rest
import ApiSchema.Proofs.Running
import ApiSchema.Proofs.Table
import ApiSchema.Proofs.Text.Pieces
import Mathlib.Data.List.TakeWhile

/-! How mappings are written: a method, a target and groups. The parser reads every text that begins
with a method and a target, and takes from what is behind them the groups that stand in it, whatever
stands between them. -/

namespace ApiSchema

namespace Rest

open Text

section Phrases

def IsVariable (name : String) (text : List Char) : Prop :=
  ∃ word, word ≠ [] ∧ (∀ c ∈ word, isWord c = true) ∧ name = String.ofList word ∧
    text = '\x7b' :: (word ++ ['\x7d'])

/-- `[header Name: {variable}]`, where the name counts in small letters. -/
def IsHeader (entry : String × String) (text : List Char) : Prop :=
  ∃ name argument, name ≠ [] ∧ (∀ c ∈ name, isHeaderChar c = true) ∧
    entry.1 = lower (String.ofList name) ∧ IsVariable entry.2 argument ∧
    text = "[header ".toList ++ (name ++ (": ".toList ++ (argument ++ [']'])))

def IsBody (name : String) (text : List Char) : Prop :=
  ∃ argument, IsVariable name argument ∧ text = "[body ".toList ++ (argument ++ [']'])

/-- Nothing, or a question mark and variables with `&` between them. -/
inductive Query : List String → List Char → Prop where
  | none : Query [] []
  | asked {names pieces} (filled : pieces ≠ []) (each : List.Forall₂ IsVariable names pieces) :
    Query names ('?' :: join '&' pieces)

structure Target (m : RestMapping) (text : List Char) : Prop where
  slash : m.path.toList.head? = some '/'
  plain : ' ' ∉ m.path.toList ∧ '?' ∉ m.path.toList
  path : Among IsVariable m.pathVariables m.path.toList
  query : ∃ query, Query m.queryVariables query ∧ text = m.path.toList ++ query

/-- The text begins with the method and the target of a mapping, and other text may follow behind a
space. -/
structure Begins (m : RestMapping) (text : String) (trailing : List Char) : Prop where
  supported : m.method ∈ methods
  written : ∃ word target, ' ' ∉ word ∧ upper (String.ofList word) = m.method ∧ Target m target ∧
    text.toList = word ++ ' ' :: (target ++ trailing)
  apart : trailing = [] ∨ ∃ rest, trailing = ' ' :: rest

/-- Of entries with one name the first gives the place, and the last one the item. -/
structure Keeps (entries : List (String × String)) (headers : Table String) : Prop where
  keys : headers.keys = (entries.map (·.1)).eraseDups
  items : ∀ name, headers.get? name = (entries.reverse.find? (·.1 == name)).map (·.2)

/-- The headers are those that stand in the text, and the body is the first one in it. -/
def Binds (m : RestMapping) (trailing : List Char) : Prop :=
  ∃ entries bodies, Among IsHeader entries trailing ∧ Keeps entries m.headers ∧
    Among IsBody bodies trailing ∧ m.bodyVariable = bodies.head?

/-- Groups and nothing else, each behind spaces: headers, and then a body at most. -/
inductive Groups : List (String × String) → Option String → List Char → Prop where
  | none : Groups [] none []
  | body {n name own} (written : IsBody name own) :
    Groups [] (some name) (List.replicate (n + 1) ' ' ++ own)
  | header {n entry own entries body rest} (written : IsHeader entry own)
    (others : Groups entries body rest) :
    Groups (entry :: entries) body (List.replicate (n + 1) ' ' ++ (own ++ rest))

/-- The text is that of a mapping: its method, its target and its groups. -/
def Written (m : RestMapping) (text : String) : Prop :=
  ∃ trailing entries, Begins m text trailing ∧ Groups entries m.bodyVariable trailing ∧
    Keeps entries m.headers

end Phrases

section Readers

variable {cs rest word : List Char} {name : String} {entry : String × String}

theorem take_while_before {accepts : Char → Bool} {last : Char} (rest : List Char)
    (each : ∀ c ∈ word, accepts c = true) (ends : accepts last = false) :
    (word ++ last :: rest).takeWhile accepts = word ∧
      (word ++ last :: rest).dropWhile accepts = last :: rest := by
  rw [List.takeWhile_append_of_pos each, List.dropWhile_append_of_pos each]
  simp [ends]

theorem read_variable_iff :
    readVariable cs = some (name, rest) ↔ ∃ own, IsVariable name own ∧ cs = own ++ rest := by
  constructor
  · intro read
    unfold readVariable at read
    split at read
    · next inner =>
      split at read
      · cases read
      · next behind dropped nonempty =>
        cases read
        have whole := inner.takeWhile_append_dropWhile (p := isWord)
        rw [dropped] at whole
        exact ⟨_, ⟨_, nonempty, fun c => List.mem_takeWhile_imp, rfl, rfl⟩, by simp [whole]⟩
      · cases read
    · cases read
  · intro written
    obtain ⟨_, ⟨word, nonempty, each, rfl, rfl⟩, rfl⟩ := written
    obtain ⟨taken, dropped⟩ :=
      take_while_before rest each (show isWord '\x7d' = false by decide)
    simp [readVariable, taken, dropped]

theorem read_closed_iff : readClosedVariable cs = some name ↔
    ∃ own, IsVariable name own ∧ own ++ [']'] <+: cs := by
  constructor
  · intro read
    unfold readClosedVariable at read
    split at read
    · next found =>
      cases read
      obtain ⟨own, written, rfl⟩ := read_variable_iff.mp found
      exact ⟨own, written, by simp⟩
    · cases read
  · intro written
    obtain ⟨own, written, rest, rfl⟩ := written
    have read : readVariable (own ++ ']' :: rest) = some (name, ']' :: rest) :=
      read_variable_iff.mpr ⟨own, written, rfl⟩
    simp [readClosedVariable, read]

theorem header_iff : header? cs = some entry ↔ ∃ own, IsHeader entry own ∧ own <+: cs := by
  constructor
  · intro read
    obtain ⟨inner, opened, named⟩ := Option.bind_eq_some_iff.mp read
    obtain rfl := after_iff.mp opened
    dsimp only at named
    split at named
    · cases named
    · next nonempty =>
      obtain ⟨behind, separated, named⟩ := Option.bind_eq_some_iff.mp named
      obtain ⟨argument, closed, same⟩ := Option.bind_eq_some_iff.mp named
      cases same
      obtain ⟨own, written, rest, rfl⟩ := read_closed_iff.mp closed
      have whole := inner.takeWhile_append_dropWhile (p := isHeaderChar)
      rw [after_iff.mp separated] at whole
      refine ⟨_, ⟨inner.takeWhile isHeaderChar, own, by simpa using nonempty,
        fun c => List.mem_takeWhile_imp, rfl, written, rfl⟩, rest, ?_⟩
      simpa using whole
  · intro written
    obtain ⟨_, ⟨spelled, own, nonempty, each, named, written, rfl⟩, rest, rfl⟩ := written
    have closed : readClosedVariable (own ++ ']' :: rest) = some entry.2 :=
      read_closed_iff.mpr ⟨own, written, rest, by simp⟩
    obtain ⟨taken, dropped⟩ := take_while_before (' ' :: (own ++ ']' :: rest)) each
      (show isHeaderChar ':' = false by decide)
    have opened : after? "[header ".toList ("[header ".toList ++ (spelled ++ (": ".toList ++
        (own ++ [']']))) ++ rest) = some (spelled ++ ':' :: ' ' :: (own ++ ']' :: rest)) :=
      after_iff.mpr (by simp)
    have separated : after? ": ".toList (':' :: ' ' :: (own ++ ']' :: rest)) =
        some (own ++ ']' :: rest) := after_iff.mpr rfl
    unfold header?
    refine Option.bind_eq_some_iff.mpr ⟨_, opened, ?_⟩
    dsimp only
    rw [taken, dropped, if_neg (by simpa using nonempty), ← named]
    refine Option.bind_eq_some_iff.mpr ⟨_, separated, ?_⟩
    exact Option.bind_eq_some_iff.mpr ⟨_, closed, rfl⟩

theorem body_iff : body? cs = some name ↔ ∃ own, IsBody name own ∧ own <+: cs := by
  constructor
  · intro read
    obtain ⟨inner, opened, closed⟩ := Option.bind_eq_some_iff.mp read
    obtain rfl := after_iff.mp opened
    obtain ⟨own, written, rest, rfl⟩ := read_closed_iff.mp closed
    exact ⟨_, ⟨own, written, rfl⟩, rest, by simp⟩
  · intro written
    obtain ⟨_, ⟨own, written, rfl⟩, rest, rfl⟩ := written
    have opened : after? "[body ".toList ("[body ".toList ++ (own ++ [']']) ++ rest) =
        some (own ++ ']' :: rest) := after_iff.mpr (by simp)
    have closed : readClosedVariable (own ++ ']' :: rest) = some name :=
      read_closed_iff.mpr ⟨own, written, rest, by simp⟩
    exact Option.bind_eq_some_iff.mpr ⟨_, opened, closed⟩

theorem IsVariable.not_mem {own : List Char} (written : IsVariable name own) {c : Char}
    (bare : isWord c = false) (open_ : c ≠ '\x7b') (close : c ≠ '\x7d') : c ∉ own := by
  obtain ⟨word, _, each, _, rfl⟩ := written
  have other : c ∉ word := fun member => by simp [each c member] at bare
  simp [other, open_, close]

theorem finds_variable : Finds (fun cs => (readVariable cs).map (·.1)) IsVariable '\x7b' where
  found := by
    intro cs name
    constructor
    · intro read
      obtain ⟨⟨_, rest⟩, found, rfl⟩ := Option.map_eq_some_iff.mp read
      obtain ⟨own, written, rfl⟩ := read_variable_iff.mp found
      exact ⟨own, written, rest, rfl⟩
    · intro written
      obtain ⟨own, written, rest, rfl⟩ := written
      exact Option.map_eq_some_iff.mpr ⟨_, read_variable_iff.mpr ⟨own, written, rfl⟩, rfl⟩
  marked := by
    intro name own written
    obtain ⟨word, _, each, _, rfl⟩ := written
    have other : '\x7b' ∉ word := fun member => absurd (each _ member) (by decide)
    exact ⟨_, rfl, by simp [other]⟩

theorem finds_header : Finds header? IsHeader '[' where
  found := header_iff
  marked := by
    intro entry own written
    obtain ⟨spelled, argument, _, each, _, written, rfl⟩ := written
    have first : '[' ∉ spelled := fun member => absurd (each _ member) (by decide)
    have second := written.not_mem (c := '[') (by decide) (by decide) (by decide)
    exact ⟨"header ".toList ++ (spelled ++ (": ".toList ++ (argument ++ [']']))), by simp,
      by simp [first, second]⟩

theorem finds_body : Finds body? IsBody '[' where
  found := body_iff
  marked := by
    intro name own written
    obtain ⟨argument, written, rfl⟩ := written
    have second := written.not_mem (c := '[') (by decide) (by decide) (by decide)
    exact ⟨"body ".toList ++ (argument ++ [']']), by simp, by simp [second]⟩

theorem variable_names_iff {names : List String} :
    variableNames cs = names ↔ Among IsVariable names cs := by
  rw [finds_variable.among_iff, variableNames, occurrences_map]

theorem is_variable_iff {piece : List Char} : isVariable piece = true ↔ ∃ name, IsVariable name piece := by
  unfold isVariable
  constructor
  · intro read
    split at read
    · next name found =>
      obtain ⟨own, written, rfl⟩ := read_variable_iff.mp found
      exact ⟨name, by simpa using written⟩
    · cases read
  · intro written
    obtain ⟨name, written⟩ := written
    have read : readVariable piece = some (name, []) :=
      read_variable_iff.mpr ⟨piece, written, by simp⟩
    rw [read]

end Readers

section Targets

variable {cs : List Char} {names : List String} {pieces : List (List Char)}

theorem among_join (each : List.Forall₂ IsVariable names pieces) :
    Among IsVariable names (join '&' pieces) := by
  induction each with
  | nil => exact .nil
  | @cons name piece names pieces written others ih =>
    cases others with
    | nil => simpa [join] using Among.item written .nil
    | cons second others =>
      rw [join_cons '&' piece (List.cons_ne_nil _ _)]
      refine .item written (.other (fun name own written front => ?_) ih)
      obtain ⟨tail, rfl, _⟩ := finds_variable.marked written
      exact absurd (List.cons_prefix_cons.mp front).1 (by decide)

theorem plain_query {separator : Char} (bare : isWord separator = false) (open_ : separator ≠ '\x7b')
    (close : separator ≠ '\x7d') (each : List.Forall₂ IsVariable names pieces) :
    ∀ piece ∈ pieces, separator ∉ piece := by
  intro piece member
  obtain ⟨name, _, written⟩ := exists_left each member
  exact written.not_mem bare open_ close

theorem exists_names (each : ∀ piece ∈ pieces, ∃ name, IsVariable name piece) :
    ∃ names, List.Forall₂ IsVariable names pieces := by
  induction pieces with
  | nil => exact ⟨[], .nil⟩
  | cons piece pieces ih =>
    obtain ⟨⟨name, written⟩, later⟩ := List.forall_mem_cons.mp each
    obtain ⟨names, others⟩ := ih later
    exact ⟨name :: names, .cons written others⟩

theorem is_query_iff : isQuery cs = true ↔
    ∃ names pieces, pieces ≠ [] ∧ List.Forall₂ IsVariable names pieces ∧ cs = join '&' pieces := by
  constructor
  · intro query
    obtain ⟨names, written⟩ := exists_names fun piece member =>
      is_variable_iff.mp (List.all_eq_true.mp query piece member)
    exact ⟨names, _, split_ne_nil '&' cs, written, (join_split '&' cs).symm⟩
  · intro written
    obtain ⟨names, pieces, filled, each, rfl⟩ := written
    rw [isQuery, split_join filled (plain_query (by decide) (by decide) (by decide) each),
      List.all_eq_true]
    intro piece member
    obtain ⟨name, _, written⟩ := exists_left each member
    exact is_variable_iff.mpr ⟨name, written⟩

def pathOf (target : List Char) : List Char := target.takeWhile (· != '?')

def queryOf (target : List Char) : List Char := (target.dropWhile (· != '?')).drop 1

theorem no_mark {path : List Char} (plain : '?' ∉ path) : ∀ c ∈ path, (c != '?') = true := by
  intro c member
  rw [bne_iff_ne]
  rintro rfl
  exact plain member

theorem path_of_plain {path : List Char} (plain : '?' ∉ path) :
    pathOf path = path ∧ queryOf path = [] := by
  have each := no_mark plain
  simp [pathOf, queryOf, List.takeWhile_eq_self_iff.mpr each, List.dropWhile_eq_nil_iff.mpr each]

theorem path_of_query {path query : List Char} (plain : '?' ∉ path) :
    pathOf (path ++ '?' :: query) = path ∧ queryOf (path ++ '?' :: query) = query := by
  obtain ⟨taken, dropped⟩ :=
    take_while_before query (no_mark plain) (show ('?' != '?') = false by rfl)
  simp [pathOf, queryOf, taken, dropped]

theorem target_cases (cs : List Char) : '?' ∉ pathOf cs ∧
    (cs = pathOf cs ∧ '?' ∉ cs ∨ cs = pathOf cs ++ '?' :: queryOf cs) := by
  have plain : '?' ∉ pathOf cs := fun member => by simpa using List.mem_takeWhile_imp member
  refine ⟨plain, ?_⟩
  have whole := cs.takeWhile_append_dropWhile (p := (· != '?'))
  cases behind : cs.dropWhile (· != '?') with
  | nil =>
    rw [behind, List.append_nil] at whole
    exact .inl ⟨whole.symm, fun member => plain (by rw [pathOf, whole]; exact member)⟩
  | cons c query =>
    have mark : c = '?' := by simpa [behind] using List.head?_dropWhile_not (· != '?') cs
    refine .inr ?_
    rw [behind, mark] at whole
    simp [pathOf, queryOf, behind, whole]

theorem slash_of_query {path query : List Char} (slash : (path ++ '?' :: query).head? = some '/') :
    path.head? = some '/' := by
  cases path with
  | nil => cases slash
  | cons c rest => exact slash

theorem Query.plain {names : List String} {query : List Char} (written : Query names query) :
    ' ' ∉ query := by
  cases written with
  | none => exact List.not_mem_nil
  | asked filled each =>
    intro member
    rcases List.mem_cons.mp member with mark | member
    · exact absurd mark (by decide)
    · rcases mem_join member with mark | found
      · exact absurd mark (by decide)
      · obtain ⟨piece, listed, inside⟩ := found
        exact plain_query (by decide) (by decide) (by decide) each piece listed inside

theorem target_iff {m : RestMapping} : Target m cs ↔
    ' ' ∉ cs ∧ cs.head? = some '/' ∧ (cs.contains '?' = true → isQuery (queryOf cs) = true) ∧
      m.path = String.ofList (pathOf cs) ∧ m.pathVariables = variableNames (pathOf cs) ∧
        m.queryVariables = variableNames (queryOf cs) := by
  constructor
  · intro target
    obtain ⟨slash, ⟨plain, unmarked⟩, path, query, written, rfl⟩ := target
    have spaces : ' ' ∉ m.path.toList ++ query := by simp [plain, written.plain]
    have head : (m.path.toList ++ query).head? = some '/' := by simp [List.head?_append, slash]
    refine ⟨spaces, head, ?_⟩
    generalize m.queryVariables = names at written ⊢
    cases written with
    | none =>
      obtain ⟨own, none⟩ := path_of_plain unmarked
      rw [List.append_nil, own, none, String.ofList_toList]
      exact ⟨fun marked => absurd (List.contains_iff_mem.mp marked) unmarked, rfl,
        (variable_names_iff.mpr path).symm, rfl⟩
    | asked filled each =>
      obtain ⟨own, behind⟩ := path_of_query unmarked
      rw [own, behind, String.ofList_toList]
      exact ⟨fun _ => is_query_iff.mpr ⟨_, _, filled, each, rfl⟩, rfl,
        (variable_names_iff.mpr path).symm, (variable_names_iff.mpr (among_join each)).symm⟩
  · intro read
    obtain ⟨plain, slash, query, path, inPath, inQuery⟩ := read
    have own : m.path.toList = pathOf cs := by rw [path, String.toList_ofList]
    have among : Among IsVariable m.pathVariables m.path.toList := by
      rw [own]
      exact variable_names_iff.mp inPath.symm
    obtain ⟨unmarked, ⟨whole, none⟩ | whole⟩ := target_cases cs
    · refine ⟨by rw [own, ← whole, slash], ⟨by rw [own, ← whole]; exact plain, own ▸ unmarked⟩,
        among, [], ?_, by rw [own, ← whole, List.append_nil]⟩
      rw [inQuery, (path_of_plain none).2]
      exact .none
    · have marked : '?' ∈ cs := by rw [whole]; simp
      obtain ⟨names, pieces, filled, each, joined⟩ :=
        is_query_iff.mp (query (List.contains_iff_mem.mpr marked))
      have same : m.queryVariables = names := by
        rw [inQuery, joined]
        exact variable_names_iff.mpr (among_join each)
      have head : (pathOf cs).head? = some '/' := slash_of_query (whole ▸ slash)
      have spaces : ' ' ∉ pathOf cs := fun member => plain (by rw [whole]; simp [member])
      refine ⟨own ▸ head, own ▸ ⟨spaces, unmarked⟩, among, '?' :: queryOf cs, ?_, own ▸ whole⟩
      rw [same, joined]
      exact .asked filled each

end Targets

/-! What the parser of mappings reads. It accepts the texts that begin with a method and a target, and
reads each text of a mapping as that mapping. -/

variable {text : String} {m other : RestMapping} {trailing rest : List Char}
  {entries : List (String × String)} {body : Option String} {headers : Table String}

theorem keeps_iff : Keeps entries headers ↔ headers = Table.ofEntries entries := by
  have items : ∀ name, (Table.ofEntries entries).get? name =
      (entries.reverse.find? (·.1 == name)).map (·.2) := fun name => by
    rw [Table.ofEntries, Table.get?_foldl_insert (·.1) (·.2) entries name []]
    simp [Table.get?]
  have names := Table.keys_ofEntries entries
  constructor
  · intro keeps
    refine Table.ext_keys ?_ (keeps.keys.trans names.symm) fun name => ?_
    · rw [keeps.keys, ← names]
      exact Table.ofEntries_distinct entries
    · rw [keeps.items, items]
  · rintro rfl
    exact ⟨names, items⟩

theorem binds_iff : Binds m trailing ↔
    m.headers = Table.ofEntries (occurrences header? trailing) ∧
      m.bodyVariable = (occurrences body? trailing).head? := by
  constructor
  · intro binds
    obtain ⟨entries, bodies, inHeaders, keeps, inBodies, body⟩ := binds
    rw [finds_header.occurrences_of_among inHeaders, finds_body.occurrences_of_among inBodies]
    exact ⟨keeps_iff.mp keeps, body⟩
  · intro read
    exact ⟨_, _, finds_header.among_occurrences trailing, keeps_iff.mpr read.1,
      finds_body.among_occurrences trailing, read.2⟩

section Groups

theorem header_not_body {name : String} {entry : String × String} {own : List Char}
    (header : IsHeader entry own) : body? (own ++ rest) ≠ some name := by
  intro read
  obtain ⟨_, ⟨argument, _, rfl⟩, behind, front⟩ := body_iff.mp read
  obtain ⟨spelled, variable_, _, _, _, _, rfl⟩ := header
  simp at front

theorem body_not_header {name : String} {entry : String × String} {own : List Char}
    (body : IsBody name own) : header? (own ++ rest) ≠ some entry := by
  intro read
  obtain ⟨_, header, behind, front⟩ := header_iff.mp read
  have read : body? (_ ++ behind) = some name := body_iff.mpr ⟨own, body, rest, front.symm⟩
  exact header_not_body header read

theorem spaces_unmarked (n : Nat) : '[' ∉ List.replicate n ' ' := fun member =>
  absurd (List.eq_of_mem_replicate member) (by decide)

theorem Groups.found (groups : Groups entries body trailing) :
    occurrences header? trailing = entries ∧ occurrences body? trailing = body.toList := by
  induction groups with
  | none => exact ⟨rfl, rfl⟩
  | @body n name own written =>
    obtain ⟨tail, rfl, plain⟩ := finds_body.marked written
    have no : header? ('[' :: (tail ++ [])) = .none := Option.eq_none_iff_forall_ne_some.mpr fun entry =>
      body_not_header written
    have header := finds_header.occurrences_bare no plain
    have body := finds_body.occurrences_of_among (.item written .nil)
    rw [finds_header.occurrences_skip (spaces_unmarked _), finds_body.occurrences_skip (spaces_unmarked _)]
    rw [List.append_nil] at header body
    exact ⟨header, body⟩
  | @header n entry own entries body rest written others ih =>
    rw [finds_header.occurrences_skip (spaces_unmarked _), finds_body.occurrences_skip (spaces_unmarked _),
      finds_header.occurrences_own written, ih.1, ← ih.2]
    obtain ⟨tail, rfl, plain⟩ := finds_header.marked written
    have no : body? ('[' :: (tail ++ rest)) = .none := Option.eq_none_iff_forall_ne_some.mpr fun name =>
      header_not_body written
    exact ⟨rfl, finds_body.occurrences_bare no plain⟩

theorem Groups.binds (groups : Groups entries m.bodyVariable trailing) (keeps : Keeps entries m.headers) :
    Binds m trailing := by
  obtain ⟨inHeaders, inBody⟩ := groups.found
  rw [binds_iff, inHeaders, inBody]
  exact ⟨keeps_iff.mp keeps, by cases m.bodyVariable <;> rfl⟩

theorem Groups.marked (groups : Groups entries body trailing) : trailing = [] ∨ '[' ∈ trailing := by
  cases groups with
  | none => exact .inl rfl
  | body written =>
    obtain ⟨tail, rfl, _⟩ := finds_body.marked written
    exact .inr (by simp)
  | header written others =>
    obtain ⟨tail, rfl, _⟩ := finds_header.marked written
    exact .inr (by simp)

end Groups

theorem parse_ok_iff : RestMapping.parse text = .ok m ↔
    ∃ word target groups, split ' ' text.toList = word :: target :: groups ∧
      upper (String.ofList word) ∈ methods ∧ target.head? = some '/' ∧
      (target.contains '?' = true → isQuery (queryOf target) = true) ∧
      m = {
        method := upper (String.ofList word)
        path := String.ofList (pathOf target)
        pathVariables := variableNames (pathOf target)
        queryVariables := variableNames (queryOf target)
        headers := Table.ofEntries (occurrences header? (join ' ' groups))
        bodyVariable := (occurrences body? (join ' ' groups)).head? } := by
  unfold RestMapping.parse
  cases divided : split ' ' text.toList with
  | nil => exact absurd divided (split_ne_nil ' ' _)
  | cons word pieces =>
    by_cases supported : upper (String.ofList word) ∈ methods
    · match pieces with
      | [] => simp [supported]
      | [] :: groups => simp [supported]
      | (c :: target) :: groups =>
        by_cases slash : c = '/'
        · subst slash
          have behind : queryOf ('/' :: target) = (target.dropWhile (· != '?')).tail := by simp [queryOf]
          by_cases marked : '?' ∈ target
          · cases query : isQuery (queryOf ('/' :: target))
            · simp [supported, marked, query, ← behind]
            · simp [supported, marked, query, ← behind, pathOf]
              exact eq_comm
          · simp [supported, marked, ← behind, pathOf]
            exact eq_comm
        · simp [slash, supported]
    · simp [supported]

theorem occurrences_behind {α : Type} {read : List Char → Option α} {spells : α → List Char → Prop}
    (finds : Finds read spells '[') {groups : List (List Char)} (behind : Behind ' ' trailing groups) :
    occurrences read (join ' ' groups) = occurrences read trailing := by
  cases behind with
  | nothing => rfl
  | further divided =>
    rw [← divided, join_split]
    exact (finds.occurrences_skip (show '[' ∉ [' '] by decide)).symm

theorem Begins.divided (begins : Begins m text trailing) : ∃ word target groups,
    split ' ' text.toList = word :: target :: groups ∧ upper (String.ofList word) = m.method ∧
      Target m target ∧ text.toList = word ++ ' ' :: (target ++ trailing) ∧ Behind ' ' trailing groups := by
  obtain ⟨_, ⟨word, target, plain, upper, written, whole⟩, apart⟩ := begins
  have plain' := (target_iff.mp written).1
  obtain ⟨groups, behind⟩ := exists_behind apart
  exact ⟨word, target, groups, split_two_iff.mpr ⟨plain, plain', trailing, whole, behind⟩, upper, written,
    whole, behind⟩

/-- Where the target ends does not depend on the mapping. -/
theorem Begins.unique (begins : Begins m text trailing) (again : Begins other text rest) :
    trailing = rest := by
  obtain ⟨word, target, groups, divided, _, _, whole, _⟩ := begins.divided
  obtain ⟨word', target', groups', divided', _, _, whole', _⟩ := again.divided
  rw [divided, List.cons.injEq, List.cons.injEq] at divided'
  obtain ⟨rfl, rfl, _⟩ := divided'
  simpa [whole] using whole'

theorem reads_iff : RestMapping.parse text = .ok m ↔
    ∃ trailing, Begins m text trailing ∧ Binds m trailing := by
  rw [parse_ok_iff]
  constructor
  · intro read
    obtain ⟨word, target, groups, divided, supported, slash, query, rfl⟩ := read
    obtain ⟨plain, plain', trailing, whole, behind⟩ := split_two_iff.mp divided
    refine ⟨trailing, ⟨supported, ⟨word, target, plain, rfl, ?_, whole⟩, ?_⟩, binds_iff.mpr ⟨?_, ?_⟩⟩
    · exact target_iff.mpr ⟨plain', slash, query, rfl, rfl, rfl⟩
    · cases behind with
      | nothing => exact .inl rfl
      | further _ => exact .inr ⟨_, rfl⟩
    · rw [occurrences_behind finds_header behind]
    · rw [occurrences_behind finds_body behind]
  · intro written
    obtain ⟨trailing, begins, binds⟩ := written
    obtain ⟨word, target, groups, divided, upper, written, _, behind⟩ := begins.divided
    obtain ⟨headers, body⟩ := binds_iff.mp binds
    obtain ⟨_, slash, query, path, inPath, inQuery⟩ := target_iff.mp written
    refine ⟨word, target, groups, divided, upper ▸ begins.supported, slash, query, ?_⟩
    rw [occurrences_behind finds_header behind, occurrences_behind finds_body behind, upper, ← path,
      ← inPath, ← inQuery, ← headers, ← body]

/-- What stands behind the target has no part in what the text begins with. -/
theorem Begins.bound (begins : Begins m text trailing) :
    Begins { m with headers, bodyVariable := body } text trailing := by
  obtain ⟨supported, ⟨word, target, plain, upper, written, whole⟩, apart⟩ := begins
  exact ⟨supported, ⟨word, target, plain, upper, ⟨written.slash, written.plain, written.path,
    written.query⟩, whole⟩, apart⟩

/-- The parser accepts what begins with a method and a target, and reads from it the headers and the
first body that stand behind them. A text of a mapping is read as that mapping; whether the rest of a
text is made of groups is not looked at. -/
theorem mapping_read (text : String) :
    (∀ m, RestMapping.parse text = .ok m ↔ ∃ trailing, Begins m text trailing ∧ Binds m trailing) ∧
    ((∃ m, RestMapping.parse text = .ok m) ↔ ∃ m trailing, Begins m text trailing) ∧
    ∀ m, Written m text ↔ RestMapping.parse text = .ok m ∧
      ∃ trailing entries body, Begins m text trailing ∧ Groups entries body trailing := by
  refine ⟨fun m => reads_iff, ⟨fun read => ?_, fun written => ?_⟩, fun m => ⟨fun written => ?_, ?_⟩⟩
  · obtain ⟨m, read⟩ := read
    obtain ⟨trailing, begins, _⟩ := reads_iff.mp read
    exact ⟨m, trailing, begins⟩
  · obtain ⟨m, trailing, begins⟩ := written
    exact ⟨_, reads_iff.mpr ⟨trailing, begins.bound, binds_iff.mpr ⟨rfl, rfl⟩⟩⟩
  · obtain ⟨trailing, entries, begins, groups, keeps⟩ := written
    exact ⟨reads_iff.mpr ⟨trailing, begins, groups.binds keeps⟩, trailing, entries, _, begins, groups⟩
  · intro read
    obtain ⟨read, trailing, entries, body, begins, groups⟩ := read
    obtain ⟨trailing', begins', binds⟩ := reads_iff.mp read
    obtain rfl := begins'.unique begins
    obtain ⟨headers, bound⟩ := binds_iff.mp binds
    obtain ⟨inHeaders, inBody⟩ := groups.found
    have same : m.bodyVariable = body := by
      rw [bound, inBody]
      cases body <;> rfl
    exact ⟨trailing', entries, begins, same ▸ groups, keeps_iff.mpr (by rw [headers, inHeaders])⟩

/-- A word behind the target is skipped, though no mapping is written so. -/
theorem junk_skipped : RestMapping.parse "GET /x junk" = .ok ⟨"GET", "/x", [], [], [], none⟩ ∧
    ∀ m, ¬ Written m "GET /x junk" := by
  refine ⟨by rfl, fun m written => ?_⟩
  obtain ⟨trailing, entries, begins, groups, _⟩ := written
  obtain ⟨word, target, pieces, divided, _, _, whole, behind⟩ := begins.divided
  rcases groups.marked with rfl | marked
  · cases behind
    have three : (split ' ' "GET /x junk".toList).length = 3 := by decide
    rw [divided] at three
    cases three
  · have unmarked : '[' ∉ "GET /x junk".toList := by decide
    rw [whole] at unmarked
    simp [marked] at unmarked

end Rest

end ApiSchema

import ApiSchema.Proofs.Token.Names

/-! How lexemes are spelled, and what can stand between them: blanks, and comments that are ended. A lexeme is
read from each of its spellings, if nothing behind goes on with it, and whatever is read has been spelled.
Spacing is skipped. So tokens are read back as they were printed, whatever stands between them. -/

namespace ApiSchema.Lexer

/-- Blanks, newlines and comments, one behind the other. A line comment is ended by its newline, and
a block comment by the first mark that can end it. -/
inductive Spacing : List Char → Prop where
  | none : Spacing []
  | blank {c rest} (blank : c ∈ [' ', '\t', '\r', '\n']) (others : Spacing rest) : Spacing (c :: rest)
  | line {body rest} (single : '\n' ∉ body) (others : Spacing rest) :
    Spacing ('/' :: '/' :: (body ++ '\n' :: rest))
  | block {body rest} (unended : ¬ ['*', '/'] <:+: body) (others : Spacing rest) :
    Spacing ('/' :: '*' :: (body ++ '*' :: '/' :: rest))

/-- What is left of spacing when it has been entered. -/
def Gap.Ends : Gap → List Char → Prop
  | .open, gap => Spacing gap
  | .line, gap => ∃ body rest, gap = body ++ '\n' :: rest ∧ '\n' ∉ body ∧ Spacing rest
  | .block, gap =>
    ∃ body rest, gap = body ++ '*' :: '/' :: rest ∧ ¬ ['*', '/'] <:+: body ∧ Spacing rest

variable {c : Char} {cs body gap rest : List Char}

theorem Spacing.head (spacing : Spacing gap) (present : gap ≠ []) :
    ∃ c more, gap = c :: more ∧ c ∈ [' ', '\t', '\r', '\n', '/'] := by
  cases spacing with
  | none => exact absurd rfl present
  | blank blank => exact ⟨_, _, rfl, List.mem_append_left ['/'] blank⟩
  | line => exact ⟨'/', _, rfl, by decide⟩
  | block => exact ⟨'/', _, rfl, by decide⟩

theorem blank_iff : c ∈ [' ', '\t', '\r', '\n'] ↔ c = ' ' ∨ c = '\t' ∨ c = '\r' ∨ c = '\n' := by
  simp

theorem not_infix_cons (other : ¬ (c = '*' ∧ ∃ more, body = '/' :: more))
    (unended : ¬ ['*', '/'] <:+: body) : ¬ ['*', '/'] <:+: c :: body := by
  intro among
  rcases List.infix_cons_iff.mp among with first | later
  · obtain ⟨more, same⟩ := first
    obtain ⟨star, slash⟩ := List.cons_eq_cons.mp same
    exact other ⟨star.symm, more, slash.symm⟩
  · exact unended later

section Skipping

variable {p : Position}

theorem skip_line (single : '\n' ∉ body) :
    skipGap .line (body ++ '\n' :: rest) p = skipGap .open rest (p.after (body ++ ['\n'])) := by
  induction body generalizing p with
  | nil => rfl
  | cons c body ih =>
    have other : c ≠ '\n' := fun same => single (same ▸ List.mem_cons_self ..)
    rw [List.cons_append, skipGap, if_neg other,
      ih fun member => single (List.mem_cons_of_mem _ member)]
    rfl

theorem skip_block (unended : ¬ ['*', '/'] <:+: body) :
    skipGap .block (body ++ '*' :: '/' :: rest) p =
      skipGap .open rest (p.after (body ++ ['*', '/'])) := by
  induction body generalizing p with
  | nil => rfl
  | cons c body ih =>
    have behind := ih (p := p.step c) fun among => unended (List.infix_cons among)
    rw [List.cons_append, skipGap, behind]
    · rfl
    -- The mark that ends a comment would begin here.
    intro more star slash
    cases body with
    | nil => cases slash
    | cons d body =>
      obtain ⟨rfl, _⟩ := List.cons_eq_cons.mp slash
      exact unended ⟨[], body, by rw [star]; rfl⟩

theorem skip_spacing (spacing : Spacing gap) (rest : List Char) (p : Position) :
    skipGap .open (gap ++ rest) p = skipGap .open rest (p.after gap) := by
  induction spacing generalizing p with
  | none => rfl
  | @blank c more blank _ ih =>
    have slash : c ≠ '/' := by rintro rfl; exact absurd blank (by decide)
    rw [List.cons_append, skipGap, if_pos (blank_iff.mp blank), ih]
    · rfl
    · exact fun _ same => absurd same slash
    · exact fun _ same => absurd same slash
  | @line body more single _ ih =>
    rw [List.cons_append, List.cons_append, List.append_assoc, List.cons_append, skipGap,
      skip_line single, ih, ← Position.after_append, List.append_assoc]
    rfl
  | @block body more unended _ ih =>
    rw [List.cons_append, List.cons_append, List.append_assoc, List.cons_append, List.cons_append,
      skipGap, skip_block unended, ih, ← Position.after_append, List.append_assoc]
    rfl

theorem skip_nothing (other : c ∉ [' ', '\t', '\r', '\n', '/']) :
    skipGap .open (c :: rest) p = ⟨c :: rest, p⟩ := by
  have slash : c ≠ '/' := by rintro rfl; exact other (by decide)
  have blank : c ∉ [' ', '\t', '\r', '\n'] := fun member => other (List.mem_append_left ['/'] member)
  rw [skipGap, if_neg (mt blank_iff.mpr blank)]
  · exact fun _ same => absurd same slash
  · exact fun _ same => absurd same slash

theorem skipped (mode : Gap) (cs : List Char) (p : Position) : ∃ gap,
    cs = gap ++ (skipGap mode cs p).rest ∧ (skipGap mode cs p).position = p.after gap ∧
      ((skipGap mode cs p).rest ≠ [] → mode.Ends gap) := by
  fun_induction skipGap mode cs p with
  | case1 mode p => exact ⟨[], rfl, rfl, absurd rfl⟩
  | case2 rest p ih =>
    obtain ⟨gap, split, position, ends⟩ := ih
    refine ⟨'/' :: '/' :: gap, by rw [List.cons_append, List.cons_append, ← split], position,
      fun more => ?_⟩
    obtain ⟨body, behind, rfl, single, spacing⟩ := ends more
    exact .line single spacing
  | case3 rest p ih =>
    obtain ⟨gap, split, position, ends⟩ := ih
    refine ⟨'/' :: '*' :: gap, by rw [List.cons_append, List.cons_append, ← split], position,
      fun more => ?_⟩
    obtain ⟨body, behind, rfl, unended, spacing⟩ := ends more
    exact .block unended spacing
  | case4 c rest p _ _ blank ih =>
    obtain ⟨gap, split, position, ends⟩ := ih
    exact ⟨c :: gap, by rw [List.cons_append, ← split], position,
      fun more => .blank (blank_iff.mpr blank) (ends more)⟩
  | case5 c rest p => exact ⟨[], rfl, rfl, fun _ => .none⟩
  | case6 rest p ih =>
    obtain ⟨gap, split, position, ends⟩ := ih
    exact ⟨'\n' :: gap, by rw [List.cons_append, ← split], position,
      fun more => ⟨[], gap, rfl, List.not_mem_nil, ends more⟩⟩
  | case7 c rest p other ih =>
    obtain ⟨gap, split, position, ends⟩ := ih
    refine ⟨c :: gap, by rw [List.cons_append, ← split], position, fun more => ?_⟩
    obtain ⟨body, behind, rfl, single, spacing⟩ := ends more
    refine ⟨c :: body, behind, rfl, fun member => ?_, spacing⟩
    rcases List.mem_cons.mp member with same | later
    · exact other same.symm
    · exact single later
  | case8 rest p ih =>
    obtain ⟨gap, split, position, ends⟩ := ih
    refine ⟨'*' :: '/' :: gap, by rw [List.cons_append, List.cons_append, ← split], position,
      fun more => ⟨[], gap, rfl, by simp, ends more⟩⟩
  | case9 c rest p other ih =>
    obtain ⟨gap, split, position, ends⟩ := ih
    refine ⟨c :: gap, by rw [List.cons_append, ← split], position, fun more => ?_⟩
    obtain ⟨body, behind, rfl, unended, spacing⟩ := ends more
    refine ⟨c :: body, behind, rfl, not_infix_cons ?_ unended, spacing⟩
    rintro ⟨star, tail, rfl⟩
    exact other _ star split

end Skipping

end ApiSchema.Lexer

namespace ApiSchema

open Lexer

/-- The content of a string, as it stands between quotes. Any character may stand behind a backslash,
a quote and a backslash have to. -/
inductive Lexer.Escapes : List Char → List Char → Prop where
  | nil : Escapes [] []
  | plain {c content body} (quote : c ≠ '"') (backslash : c ≠ '\\') (others : Escapes content body) :
    Escapes (c :: content) (c :: body)
  | escaped {c content body} (others : Escapes content body) :
    Escapes (unescape c :: content) ('\\' :: c :: body)

/-- A name that is neither a keyword nor the name of a primitive type. -/
structure Lexer.IsIdentifier (name : String) : Prop where
  spelt : ∃ c rest, name.toList = c :: rest ∧ isNameStart c = true ∧ ∀ d ∈ rest, isNamePart d = true
  keyword : ∀ k : Keyword, k.text ≠ name
  primitive : ∀ p : Primitive, p.name ≠ name

/-- The text of an annotation that takes one line. -/
structure Lexer.IsLine (text : List Char) : Prop where
  trimmed : Text.trim text = text
  single : '\n' ∉ text
  complete : text.getLast? ≠ some '\\'

namespace Lexeme

inductive Spells : Lexeme → List Char → Prop where
  | mark (m : Mark) : Spells (.mark m) m.text.toList
  | keyword (k : Keyword) : Spells (.keyword k) k.text.toList
  | primitive (p : Primitive) : Spells (.primitive p) p.name.toList
  | identifier {name} (plain : IsIdentifier name) : Spells (.identifier name) name.toList
  | string {content body} (escapes : Escapes content body) :
    Spells (.string (.ofList content)) ('"' :: (body ++ ['"']))
  | note {text} (line : IsLine text) : Spells (.note (.ofList text)) ('@' :: text)

def Covers (text : List Char) : Lexeme → Prop
  | .note _ => ∃ body, text = '@' :: body
  | lexeme => Spells lexeme text

/-- The text behind a lexeme does not go on with it. -/
def Ends (rest : List Char) (lexeme : Lexeme) : Prop :=
  ∀ c more, rest = c :: more → isNamePart c = false ∧ ∀ text, lexeme = .note text → c = '\n'

end Lexeme

theorem Lexeme.Spells.covers {lexeme : Lexeme} {text : List Char} (spells : lexeme.Spells text) :
    lexeme.Covers text := by
  cases spells with
  | mark m => exact .mark m
  | keyword k => exact .keyword k
  | primitive p => exact .primitive p
  | identifier plain => exact .identifier plain
  | string escapes => exact .string escapes
  | note => exact ⟨_, rfl⟩

namespace Lexer

variable {c : Char} {content body name rest cs : List Char} {p : Position}

theorem escapes_quoted (content : List Char) :
    Escapes content (content.flatMap fun c => if c = '"' ∨ c = '\\' then ['\\', c] else [c]) := by
  induction content with
  | nil => exact .nil
  | cons c content ih =>
    rw [List.flatMap_cons]
    split
    · next special =>
      have same : unescape c = c := by rcases special with rfl | rfl <;> decide
      have escaped := ih.escaped (c := c)
      rwa [same] at escaped
    · next other =>
      obtain ⟨quote, backslash⟩ := not_or.mp other
      exact .plain quote backslash ih

section Strings

theorem read_string (escapes : Escapes content body) (rest : List Char) (p : Position) :
    readString (body ++ '"' :: rest) p = (some content, ⟨rest, p.after (body ++ ['"'])⟩) := by
  induction escapes generalizing p with
  | nil => rfl
  | @plain c content body quote backslash _ ih =>
    rw [List.cons_append, readString, ih]
    · rfl
    · exact fun same => quote same
    · exact fun _ _ same => absurd same backslash
  | escaped _ ih =>
    rw [List.cons_append, List.cons_append, readString, ih]
    rfl

theorem string_read (cs : List Char) (p : Position) : ∃ body,
    cs = body ++ (readString cs p).2.rest ∧ (readString cs p).2.position = p.after body ∧
      ∀ content, (readString cs p).1 = some content →
        ∃ inside, body = inside ++ ['"'] ∧ Escapes content inside := by
  fun_induction readString cs p with
  | case1 p => exact ⟨[], rfl, rfl, nofun⟩
  | case2 rest p =>
    refine ⟨['"'], rfl, rfl, fun content read => ?_⟩
    cases read
    exact ⟨[], rfl, .nil⟩
  | case3 c rest p content cursor outcome ih =>
    rw [outcome] at ih
    obtain ⟨body, split, position, closes⟩ := ih
    refine ⟨'\\' :: c :: body, by rw [List.cons_append, List.cons_append, ← split], position,
      fun whole read => ?_⟩
    obtain ⟨content', held, rfl⟩ := Option.map_eq_some_iff.mp read
    obtain ⟨inside, rfl, escapes⟩ := closes content' held
    exact ⟨'\\' :: c :: inside, rfl, .escaped escapes⟩
  | case4 c rest p quote escape content cursor outcome ih =>
    rw [outcome] at ih
    obtain ⟨body, split, position, closes⟩ := ih
    refine ⟨c :: body, by rw [List.cons_append, ← split], position, fun whole read => ?_⟩
    obtain ⟨content', held, rfl⟩ := Option.map_eq_some_iff.mp read
    obtain ⟨inside, rfl, escapes⟩ := closes content' held
    -- A backslash would take the next character with it, and behind it there is one: the quote.
    refine ⟨c :: inside, rfl, .plain (fun same => quote same) (fun same => ?_) escapes⟩
    cases inside with
    | nil => exact escape _ _ same split
    | cons d inside => exact escape _ _ same split

end Strings

section Names

theorem read_name (parts : ∀ d ∈ name, isNamePart d = true)
    (ends : ∀ c more, rest = c :: more → isNamePart c = false) :
    readName (name ++ rest) p = (name, ⟨rest, p.after name⟩) := by
  induction name generalizing p with
  | nil =>
    cases rest with
    | nil => rfl
    | cons c more =>
      rw [List.nil_append, readName, if_neg (by simp [ends c more rfl])]
      rfl
  | cons d name ih =>
    rw [List.cons_append, readName, if_pos (parts d (List.mem_cons_self ..)),
      ih fun c member => parts c (List.mem_cons_of_mem _ member)]
    rfl

theorem name_read (cs : List Char) (p : Position) :
    cs = (readName cs p).1 ++ (readName cs p).2.rest ∧
      (readName cs p).2.position = p.after (readName cs p).1 := by
  fun_induction readName cs p with
  | case1 => exact ⟨rfl, rfl⟩
  | case2 c rest p part name cursor outcome ih =>
    rw [outcome] at ih
    exact ⟨congrArg (c :: ·) ih.1, ih.2⟩
  | case3 => exact ⟨rfl, rfl⟩

end Names

section Annotations

theorem read_on_line (single : '\n' ∉ body) (before : Option (List Char)) (line : List Char) :
    readNote before line (body ++ rest) p =
      readNote before (body.reverse ++ line) rest (p.after body) := by
  induction body generalizing line p with
  | nil => rfl
  | cons c body ih =>
    have other : c ≠ '\n' := fun same => single (same ▸ List.mem_cons_self ..)
    rw [List.cons_append, readNote, if_neg other,
      ih fun member => single (List.mem_cons_of_mem _ member), List.reverse_cons, List.append_assoc]
    rfl

theorem continued_none (complete : body.getLast? ≠ some '\\') : continued? body = none := by
  unfold continued?
  split
  · next last => exact absurd last complete
  · rfl

theorem read_note (line : IsLine body) (ends : ∀ c more, rest = c :: more → c = '\n') :
    readNote none [] (body ++ rest) p = (body, ⟨rest, p.after body⟩) := by
  have whole : joinLine none (body.reverse ++ []).reverse = body := by
    rw [List.append_nil, List.reverse_reverse]
    exact line.trimmed
  rw [read_on_line line.single]
  cases rest with
  | nil =>
    rw [readNote, whole, continued_none line.complete]
    rfl
  | cons c more =>
    rw [readNote, if_pos (ends c more rfl), whole]
    dsimp only
    rw [continued_none line.complete]

theorem annotation_read (before : Option (List Char)) (line cs : List Char) (p : Position) : ∃ body,
    cs = body ++ (readNote before line cs p).2.rest ∧
      (readNote before line cs p).2.position = p.after body := by
  fun_induction readNote before line cs p with
  | case1 => exact ⟨[], rfl, rfl⟩
  | case2 before line rest p whole start continues ih =>
    obtain ⟨body, split, position⟩ := ih
    exact ⟨'\n' :: body, by rw [List.cons_append, ← split], position⟩
  | case3 => exact ⟨[], rfl, rfl⟩
  | case4 before line c rest p other ih =>
    obtain ⟨body, split, position⟩ := ih
    exact ⟨c :: body, by rw [List.cons_append, ← split], position⟩

end Annotations

theorem dots_read (cs : List Char) (p : Position) : ∃ body,
    cs = body ++ (readDots cs p).2.rest ∧ (readDots cs p).2.position = p.after body ∧
      ((readDots cs p).1 = true → body = ['.', '.', '.']) := by
  fun_cases readDots cs p with
  | case1 rest => exact ⟨['.', '.', '.'], rfl, rfl, fun _ => rfl⟩
  | case2 rest => exact ⟨['.', '.'], rfl, rfl, nofun⟩
  | case3 rest => exact ⟨['.'], rfl, rfl, nofun⟩
  | case4 => exact ⟨[], rfl, rfl, nofun⟩

section Lexemes

theorem mark_of_char {m : Mark} (found : Mark.ofChar? c = some m) : m.text.toList = [c] := by
  simpa using List.find?_some found

theorem not_mark_of_start (start : isNameStart c = true) :
    Mark.ofChar? c = none ∧ c ≠ '[' ∧ c ≠ '.' ∧ c ≠ '@' ∧ c ≠ '"' := by
  have other : ∀ {d : Char}, isNameStart d = false → c ≠ d := by
    rintro d fails rfl
    rw [fails] at start
    cases start
  refine ⟨?_, other (by decide), other (by decide), other (by decide), other (by decide)⟩
  cases found : Mark.ofChar? c with
  | none => rfl
  | some m =>
    have single := mark_of_char found
    cases m <;> cases single <;> exact absurd start (by decide)

theorem read_word (start : isNameStart c = true) (parts : ∀ d ∈ name, isNamePart d = true)
    (ends : ∀ c more, rest = c :: more → isNamePart c = false) :
    readLexeme c (name ++ rest) p =
      (.ok (Lexeme.ofWord (.ofList (c :: name))), ⟨rest, p.after (c :: name)⟩) := by
  obtain ⟨mark, bracket, dot, sign, quote⟩ := not_mark_of_start start
  unfold readLexeme
  rw [mark]
  dsimp only
  rw [if_neg bracket, if_neg dot, if_neg sign, if_neg quote, if_pos start, read_name parts ends]
  rfl

end Lexemes

end Lexer

namespace Lexeme

theorem of_word_keyword (k : Keyword) : ofWord k.text = .keyword k := by
  cases k <;> decide

theorem of_word_primitive (p : Primitive) : ofWord p.name = .primitive p := by
  cases p <;> decide

theorem of_word_identifier {name : String} (plain : IsIdentifier name) :
    ofWord name = .identifier name := by
  unfold ofWord
  have keyword : Keyword.ofText? name = none :=
    List.find?_eq_none.mpr fun k _ => by simpa using plain.keyword k
  have primitive : Primitive.ofName? name = none :=
    List.find?_eq_none.mpr fun p _ => by simpa using plain.primitive p
  rw [keyword, primitive]

theorem spells_of_word {c : Char} {rest : List Char} (start : isNameStart c = true)
    (parts : ∀ d ∈ rest, isNamePart d = true) : Spells (ofWord (.ofList (c :: rest))) (c :: rest) := by
  unfold ofWord
  cases keyword : Keyword.ofText? (.ofList (c :: rest)) with
  | some k =>
    have same : k.text = .ofList (c :: rest) := by simpa using List.find?_some keyword
    have spelt := Spells.keyword k
    rwa [same, String.toList_ofList] at spelt
  | none =>
    cases primitive : Primitive.ofName? (.ofList (c :: rest)) with
    | some p =>
      have spelt := Spells.primitive p
      rwa [Primitive.name_of_ofName? primitive, String.toList_ofList] at spelt
    | none =>
      have spelt : Spells (.identifier (.ofList (c :: rest))) (String.ofList (c :: rest)).toList := by
        refine .identifier ⟨⟨c, rest, String.toList_ofList .., start, parts⟩, fun k same => ?_,
          fun p same => ?_⟩
        · have found := List.find?_eq_none.mp keyword k (by cases k <;> decide)
          simp [same] at found
        · rw [← same, Primitive.ofName?_name] at primitive
          cases primitive
      rwa [String.toList_ofList] at spelt

variable {lexeme : Lexeme} {text rest : List Char}

theorem not_part_of_gap {c : Char} (gap : c ∈ [' ', '\t', '\r', '\n', '/']) : isNamePart c = false := by
  have all : [' ', '\t', '\r', '\n', '/'].all (!isNamePart ·) = true := by decide
  exact Bool.not_eq_true' _ ▸ List.all_eq_true.mp all c gap

theorem Ends.parts (ends : lexeme.Ends rest) :
    ∀ c more, rest = c :: more → isNamePart c = false :=
  fun c more split => (ends c more split).1

theorem Spells.read (spells : lexeme.Spells text) (ends : lexeme.Ends rest) (p : Position) :
    ∃ c more, text = c :: more ∧ c ∉ [' ', '\t', '\r', '\n', '/'] ∧
      readLexeme c (more ++ rest) p = (.ok lexeme, ⟨rest, p.after text⟩) := by
  have word : ∀ {c : Char} {more : List Char} {name : String}, name.toList = c :: more →
      isNameStart c = true → more.all isNamePart = true → ofWord name = lexeme →
      ∃ d others, name.toList = d :: others ∧ d ∉ [' ', '\t', '\r', '\n', '/'] ∧
        readLexeme d (others ++ rest) p = (.ok lexeme, ⟨rest, p.after name.toList⟩) := by
    intro c more name spelt start parts same
    refine ⟨c, more, spelt, fun blank => ?_, ?_⟩
    · cases (not_part_of_gap blank).symm.trans (is_name_part_of_start start)
    · rw [read_word start (List.all_eq_true.mp parts) ends.parts, ← spelt, String.ofList_toList, same]
  cases spells with
  | mark m => cases m <;> exact ⟨_, _, rfl, by decide, rfl⟩
  | keyword k =>
    cases k <;> exact word rfl (by decide) (by decide) (of_word_keyword _)
  | primitive q =>
    cases q <;> exact word rfl (by decide) (by decide) (of_word_primitive _)
  | identifier plain =>
    obtain ⟨c, more, spelt, start, parts⟩ := plain.spelt
    exact word spelt start (List.all_eq_true.mpr parts) (of_word_identifier plain)
  | @string content body escapes =>
    refine ⟨'"', body ++ ['"'], rfl, by decide, ?_⟩
    have split : body ++ ['"'] ++ rest = body ++ '"' :: rest := by simp
    unfold readLexeme
    dsimp only
    rw [split, read_string escapes]
    rfl
  | @note text line =>
    refine ⟨'@', text, rfl, by decide, ?_⟩
    unfold readLexeme
    dsimp only
    rw [read_note line fun c more split => (ends c more split).2 _ rfl]
    rfl

end Lexeme

/-- Whatever is read has been taken from the text, and a lexeme from a text that spells it. -/
theorem Lexer.lexeme_read (c : Char) (rest : List Char) (p : Position) : ∃ text,
    c :: rest = text ++ (readLexeme c rest p).2.rest ∧
      (readLexeme c rest p).2.position = p.after text ∧
        ∀ lexeme, (readLexeme c rest p).1 = .ok lexeme → text ≠ [] ∧ lexeme.Covers text := by
  fun_cases readLexeme c rest p with
  | case1 rest next m found =>
    refine ⟨[c], rfl, rfl, fun lexeme read => ?_⟩
    cases read
    exact ⟨List.cons_ne_nil _ _, mark_of_char found ▸ .mark m⟩
  | case2 next _ bracket rest =>
    refine ⟨[c, ']'], rfl, rfl, fun lexeme read => ?_⟩
    cases read
    exact ⟨List.cons_ne_nil _ _, bracket ▸ .mark .array⟩
  | case3 rest next => exact ⟨[c], rfl, rfl, nofun⟩
  | case4 rest _ _ dot complete cursor outcome =>
    obtain ⟨body, split, position, all⟩ := dots_read (c :: rest) p
    rw [outcome] at split position all
    refine ⟨body, split, position, fun lexeme read => ?_⟩
    cases complete with
    | false => cases read
    | true =>
      cases read
      obtain rfl := all rfl
      exact ⟨List.cons_ne_nil _ _, .mark .spread⟩
  | case5 rest next _ _ _ sign body cursor outcome =>
    obtain ⟨cs, split, position⟩ := annotation_read none [] rest next
    rw [outcome] at split position
    refine ⟨c :: cs, congrArg (c :: ·) split, position, fun lexeme read => ?_⟩
    cases read
    exact ⟨List.cons_ne_nil _ _, cs, congrArg (· :: cs) sign⟩
  | case6 rest next _ _ _ _ quote cursor content outcome =>
    obtain ⟨cs, split, position, closes⟩ := string_read rest next
    rw [outcome] at split position closes
    refine ⟨c :: cs, congrArg (c :: ·) split, position, fun lexeme read => ?_⟩
    cases read
    obtain ⟨inside, rfl, escapes⟩ := closes content rfl
    exact ⟨List.cons_ne_nil _ _, quote ▸ .string escapes⟩
  | case7 rest next _ _ _ _ _ cursor outcome =>
    obtain ⟨cs, split, position, _⟩ := string_read rest next
    rw [outcome] at split position
    exact ⟨c :: cs, congrArg (c :: ·) split, position, nofun⟩
  | case8 rest next _ _ _ _ _ start name cursor outcome =>
    obtain ⟨split, position⟩ := name_read rest next
    have parts := read_name_parts rest next
    rw [outcome] at split position parts
    refine ⟨c :: name, congrArg (c :: ·) split, position, fun lexeme read => ?_⟩
    cases read
    exact ⟨List.cons_ne_nil _ _, (Lexeme.spells_of_word start parts).covers⟩
  | case9 rest => exact ⟨[], rfl, rfl, nofun⟩

namespace Lexer

section Printing

/-- Lexemes are written one behind the other, with spacing between them, and with or without it behind the
last one. The spacing behind an annotation begins on the next line. -/
inductive Printed : List Lexeme → List Char → Prop where
  | none : Printed [] []
  | more {lexeme text gap lexemes rest} (spells : lexeme.Spells text) (spacing : Spacing gap)
    (apart : lexemes ≠ [] → gap ≠ [])
    (line : ∀ said, lexeme = .note said → ∀ c behind, gap = c :: behind → c = '\n')
    (others : Printed lexemes rest) : Printed (lexeme :: lexemes) (text ++ (gap ++ rest))

variable {file : String} {p : Position} {lexeme : Lexeme} {lexemes : List Lexeme}
  {lead gap text rest : List Char}

theorem Spacing.ends (spacing : Spacing gap) (apart : lexemes ≠ [] → gap ≠ [])
    (line : ∀ said, lexeme = .note said → ∀ c behind, gap = c :: behind → c = '\n')
    (printed : Printed lexemes rest) : lexeme.Ends (gap ++ rest) := by
  intro c behind split
  by_cases present : gap = []
  · cases printed with
    | none =>
      rw [present] at split
      cases split
    | more => exact absurd present (apart (List.cons_ne_nil _ _))
  · obtain ⟨d, more, rfl, blank⟩ := spacing.head present
    obtain ⟨rfl, _⟩ := List.cons_eq_cons.mp split
    exact ⟨Lexeme.not_part_of_gap blank, fun said note => line said note d more rfl⟩

theorem next_token_printed (leading : Spacing lead) (spells : lexeme.Spells text)
    (ends : lexeme.Ends rest) : nextToken file ⟨lead ++ (text ++ rest), p⟩ =
      (.ok (some ⟨lexeme, ⟨file, p.after lead⟩⟩), ⟨rest, (p.after lead).after text⟩) := by
  obtain ⟨c, more, rfl, other, read⟩ := spells.read ends (p.after lead)
  unfold nextToken
  dsimp only
  rw [skip_spacing leading, List.cons_append, skip_nothing other]
  dsimp only
  rw [read]

theorem next_token_ended (leading : Spacing lead) :
    nextToken file ⟨lead, p⟩ = (.ok none, ⟨[], p.after lead⟩) := by
  have skipped := skip_spacing leading [] p
  rw [List.append_nil] at skipped
  unfold nextToken
  dsimp only
  rw [skipped]
  rfl

theorem read_printed (printed : Printed lexemes text) (leading : Spacing lead) {fuel : Nat}
    (enough : lexemes.length < fuel) : ∃ tokens,
      (TokenStream.read file fuel ⟨lead ++ text, p⟩).tokens = .ok tokens ∧
        tokens.map (·.lexeme) = lexemes := by
  induction printed generalizing lead p fuel with
  | none =>
    obtain ⟨fuel, rfl⟩ : ∃ n, fuel = n + 1 := ⟨fuel - 1, by omega⟩
    refine ⟨[], ?_, rfl⟩
    rw [List.append_nil, TokenStream.read, next_token_ended leading]
    rfl
  | @more lexeme text gap lexemes rest spells spacing apart line others ih =>
    obtain ⟨fuel, rfl⟩ : ∃ n, fuel = n + 1 := ⟨fuel - 1, by omega⟩
    obtain ⟨tokens, read, same⟩ := ih (p := (p.after lead).after text) spacing
      (Nat.lt_of_succ_lt_succ enough)
    refine ⟨⟨lexeme, ⟨file, p.after lead⟩⟩ :: tokens, ?_, congrArg (lexeme :: ·) same⟩
    rw [TokenStream.read, next_token_printed leading spells (spacing.ends apart line others)]
    dsimp only
    rw [TokenStream.tokens, read]
    rfl

theorem Printed.length_le (printed : Printed lexemes text) : lexemes.length ≤ text.length := by
  induction printed with
  | none => exact Nat.le_refl _
  | @more lexeme text gap lexemes rest spells _ _ _ _ ih =>
    have ends : lexeme.Ends [] := nofun
    obtain ⟨c, more, rfl, _⟩ := spells.read ends .start
    simp only [List.length_append, List.length_cons]
    omega

theorem tokens_of_printed (printed : Printed lexemes text) (leading : Spacing lead) (file : String) :
    ∃ tokens, (TokenStream.ofSource file (.ofList (lead ++ text))).tokens = .ok tokens ∧
      tokens.map (·.lexeme) = lexemes := by
  unfold TokenStream.ofSource Cursor.ofSource
  rw [String.toList_ofList, String.length_ofList, List.length_append]
  have short := printed.length_le
  exact read_printed printed leading (by omega)

end Printing

end Lexer

end ApiSchema

import ApiSchema.Proofs.Token.Spelling
import Mathlib.Data.List.Induction
import Mathlib.Tactic.Choose

/-! Where the reader stands, call after call. It has read some of the source and its position counts the
lines and columns of that. A token is located at its first character, and only spacing is skipped in
front of it. -/

namespace ApiSchema

/-- The position behind a text that stands at the start of a source, as it is counted. -/
def Position.behind (text : List Char) : Position where
  line := text.count '\n' + 1
  column := (text.reverse.takeWhile (· != '\n')).length + 1

theorem Position.after_start (text : List Char) : start.after text = behind text := by
  induction text using List.reverseRecOn with
  | nil => rfl
  | append_singleton text c ih =>
    rw [after_append, ih]
    by_cases newline : c = '\n'
    · subst newline
      simp [behind, after, step]
    · simp [behind, after, step, newline]

namespace Lexer

/-- The reader after so many calls. Each goes on where the one before it has stopped, also when that one
has failed. -/
def cursorAfter (file source : String) : Nat → Cursor
  | 0 => .ofSource source
  | calls + 1 => (nextToken file (cursorAfter file source calls)).2

def answer (file source : String) (calls : Nat) : Except LexerError (Option Token) :=
  (nextToken file (cursorAfter file source calls)).1

def span (source : String) (start stop : Nat) : List Char := (source.toList.take stop).drop start

/-- What an answer says of a call that has skipped the text from `stop` to `start`, and has taken that
from there to `next`. -/
def Locates (file source : String) (stop start next : Nat) : Except LexerError (Option Token) → Prop
  | .ok none => next = source.length
  | .ok (some token) => start < next ∧ token.location = ⟨file, .behind (span source 0 start)⟩ ∧
    Spacing (span source stop start) ∧ token.lexeme.Covers (span source start next)
  | .error e => e.location = ⟨file, .behind (span source 0 start)⟩ ∧ Spacing (span source stop start)

/-- The same for a call that begins at a position, skips `gap` and takes `text`. -/
def Answers (file : String) (p : Position) (gap text rest : List Char) :
    Except LexerError (Option Token) → Prop
  | .ok none => rest = []
  | .ok (some token) => text ≠ [] ∧ token.location = ⟨file, p.after gap⟩ ∧ Spacing gap ∧
    token.lexeme.Covers text
  | .error e => e.location = ⟨file, p.after gap⟩ ∧ Spacing gap

theorem next_token_answers (file : String) (cursor : Cursor) : ∃ gap text,
    cursor.rest = gap ++ (text ++ (nextToken file cursor).2.rest) ∧
      (nextToken file cursor).2.position = cursor.position.after (gap ++ text) ∧
        Answers file cursor.position gap text (nextToken file cursor).2.rest
          (nextToken file cursor).1 := by
  obtain ⟨gap, split, position, spacing⟩ := skipped .open cursor.rest cursor.position
  fun_cases nextToken file cursor with
  | case1 start ended =>
    exact ⟨gap, [], split, position.trans (by rw [List.append_nil]), ended⟩
  | case2 start c rest met location cursor' lexeme outcome =>
    obtain ⟨text, taken, further, covers⟩ := lexeme_read c rest start.position
    rw [outcome] at taken further covers
    obtain ⟨present, covers⟩ := covers lexeme rfl
    refine ⟨gap, text, split.trans (congrArg (gap ++ ·) (met.trans taken)), ?_, present, ?_, ?_, covers⟩
    · rw [Position.after_append, ← position]
      exact further
    · rw [← position]
    · exact spacing (met ▸ List.cons_ne_nil c rest)
  | case3 start c rest met location cursor' fault outcome =>
    obtain ⟨text, taken, further, _⟩ := lexeme_read c rest start.position
    rw [outcome] at taken further
    refine ⟨gap, text, split.trans (congrArg (gap ++ ·) (met.trans taken)), ?_, ?_, ?_⟩
    · rw [Position.after_append, ← position]
      exact further
    · rw [← position]
    · exact spacing (met ▸ List.cons_ne_nil c rest)

section Calls

variable {file source : String} {gaps texts : Nat → List Char}

/-- What has been read by some calls, of which each skips a gap and takes a text. -/
def readBy (gaps texts : Nat → List Char) : Nat → List Char
  | 0 => []
  | calls + 1 => readBy gaps texts calls ++ (gaps calls ++ texts calls)

theorem stands_behind
    (each : ∀ n, (cursorAfter file source n).rest = gaps n ++ (texts n ++ (cursorAfter file source (n + 1)).rest) ∧
      (cursorAfter file source (n + 1)).position =
        (cursorAfter file source n).position.after (gaps n ++ texts n)) (calls : Nat) :
    source.toList = readBy gaps texts calls ++ (cursorAfter file source calls).rest ∧
      (cursorAfter file source calls).position = .behind (readBy gaps texts calls) := by
  induction calls with
  | zero => exact ⟨rfl, rfl⟩
  | succ n ih =>
    obtain ⟨split, position⟩ := ih
    obtain ⟨taken, further⟩ := each n
    constructor
    · rw [split, taken, readBy, List.append_assoc, List.append_assoc]
    · rw [further, position, ← Position.after_start, ← Position.after_append, Position.after_start]
      rfl

theorem span_of_split {before text rest : List Char} (split : source.toList = before ++ (text ++ rest)) :
    span source before.length (before ++ text).length = text := by
  rw [span, split, ← List.append_assoc, List.take_left, List.drop_left]

theorem Answers.locates {before gap text rest : List Char} {reply : Except LexerError (Option Token)}
    (answers : Answers file (.behind before) gap text rest reply)
    (split : source.toList = before ++ (gap ++ (text ++ rest))) :
    Locates file source before.length (before ++ gap).length (before ++ (gap ++ text)).length reply := by
  have joined : source.toList = (before ++ gap) ++ (text ++ rest) := by rw [split, List.append_assoc]
  have whole : span source 0 (before ++ gap).length = before ++ gap := by
    rw [span, joined, List.take_left, List.drop_zero]
  have skipped : span source before.length (before ++ gap).length = gap := span_of_split split
  have taken : span source (before ++ gap).length (before ++ (gap ++ text)).length = text := by
    rw [← List.append_assoc]
    exact span_of_split joined
  have behind : Position.behind (before ++ gap) = (Position.behind before).after gap := by
    rw [← Position.after_start, Position.after_append, Position.after_start]
  match reply, answers with
  | .ok none, ended =>
    have ended : rest = [] := ended
    have length := congrArg List.length split
    rw [String.length_toList, ended, List.append_nil] at length
    exact length.symm
  | .ok (some token), ⟨present, location, spacing, covers⟩ =>
    refine ⟨?_, by rw [whole, behind]; exact location, by rw [skipped]; exact spacing, by rw [taken]; exact covers⟩
    have long := List.length_pos_iff.mpr present
    simp only [List.length_append]
    omega
  | .error e, ⟨location, spacing⟩ =>
    exact ⟨by rw [whole, behind]; exact location, by rw [skipped]; exact spacing⟩

theorem monotone_of_steps {starts stops : Nat → Nat}
    (steps : ∀ n, stops n ≤ starts n ∧ starts n ≤ stops (n + 1)) {m n : Nat} (before : m ≤ n) :
    stops m ≤ stops n := by
  induction before with
  | refl => exact Nat.le_refl _
  | @step n _ ih => exact Nat.le_trans ih (Nat.le_trans (steps n).1 (steps n).2)

end Calls

/-- The places of a source at which calls begin to take a text, and those at which they stop, never go
back and never pass its end. The position of the reader is the one behind what it has read, and that of
a token the one of its first character. -/
theorem locations_exact (file source : String) : ∃ starts stops : Nat → Nat, stops 0 = 0 ∧
    (∀ n, stops n ≤ starts n ∧ starts n ≤ stops (n + 1) ∧ stops (n + 1) ≤ source.length) ∧
    (∀ m n, m < n → stops (m + 1) ≤ starts n) ∧
    ∀ n, (cursorAfter file source n).rest = source.toList.drop (stops n) ∧
      (cursorAfter file source n).position = .behind (span source 0 (stops n)) ∧
      Locates file source (stops n) (starts n) (stops (n + 1)) (answer file source n) := by
  choose gaps texts taken further answers using fun n =>
    next_token_answers file (cursorAfter file source n)
  have stands := stands_behind fun n => ⟨taken n, further n⟩
  set read := readBy gaps texts
  have steps : ∀ n, (read n).length ≤ (read n ++ gaps n).length ∧
      (read n ++ gaps n).length ≤ (read (n + 1)).length := fun n => by
    have next : read (n + 1) = read n ++ (gaps n ++ texts n) := rfl
    simp only [next, List.length_append]
    omega
  refine ⟨fun n => (read n ++ gaps n).length, fun n => (read n).length, rfl, fun n => ?_,
    fun m n before => ?_, fun n => ?_⟩
  · refine ⟨(steps n).1, (steps n).2, ?_⟩
    have split := congrArg List.length (stands (n + 1)).1
    rw [List.length_append, String.length_toList] at split
    exact split ▸ Nat.le_add_right ..
  · exact Nat.le_trans (monotone_of_steps steps before) (steps n).1
  · obtain ⟨split, position⟩ := stands n
    have before : span source 0 (read n).length = read n := by
      rw [span, split, List.take_left, List.drop_zero]
    refine ⟨by rw [split, List.drop_left], by rw [before, position], ?_⟩
    have reply := answers n
    rw [position] at reply
    exact reply.locates (split.trans (congrArg (read n ++ ·) (taken n)))

end Lexer

section Order

def Position.Before (p q : Position) : Prop := p.line < q.line ∨ p.line = q.line ∧ p.column < q.column

variable {p q r : Position} {file source : String} {ts : List Token}

theorem Position.Before.trans (first : p.Before q) (second : q.Before r) : p.Before r := by
  unfold Before at *
  omega

theorem Position.Before.ne (before : p.Before q) : p ≠ q := by
  rintro rfl
  unfold Before at before
  omega

theorem Position.before_step (p : Position) (c : Char) : p.Before (p.step c) := by
  unfold step
  split
  · exact .inl (Nat.lt_succ_self _)
  · exact .inr ⟨rfl, Nat.lt_succ_self _⟩

theorem Position.before_after {text : List Char} (present : text ≠ []) : p.Before (p.after text) := by
  induction text generalizing p with
  | nil => exact absurd rfl present
  | cons c text ih =>
    rw [after_cons]
    cases text with
    | nil => exact p.before_step c
    | cons d text => exact (p.before_step c).trans (ih (List.cons_ne_nil d text))

theorem Position.Before.after (before : p.Before q) (text : List Char) : p.Before (q.after text) := by
  cases text with
  | nil => exact before
  | cons c text => exact before.trans (before_after (List.cons_ne_nil c text))

theorem TokenStream.tokens_of_cons {token : Token} {rest : TokenStream}
    (lexed : tokens (.ok token :: rest) = .ok ts) : ∃ others, rest.tokens = .ok others ∧ ts = token :: others := by
  rw [tokens] at lexed
  cases read : rest.tokens with
  | error e =>
    rw [read] at lexed
    cases lexed
  | ok others =>
    rw [read] at lexed
    cases lexed
    exact ⟨others, rfl, rfl⟩

theorem TokenStream.read_in_order {fuel : Nat} {cursor : Cursor}
    (lexed : (read file fuel cursor).tokens = .ok ts) :
    (∀ t ∈ ts, ∀ q : Position, q.Before cursor.position → q.Before t.location.position) ∧
      ts.Pairwise fun t t' => t.location.position.Before t'.location.position := by
  induction fuel generalizing cursor ts with
  | zero =>
    cases lexed
    exact ⟨nofun, .nil⟩
  | succ fuel ih =>
    obtain ⟨gap, text, _, position, answers⟩ := Lexer.next_token_answers file cursor
    rw [read] at lexed
    generalize Lexer.nextToken file cursor = outcome at lexed position answers
    obtain ⟨answer, cursor'⟩ := outcome
    cases answer with
    | error e => cases lexed
    | ok found =>
      cases found with
      | none =>
        cases lexed
        exact ⟨nofun, .nil⟩
      | some token =>
        obtain ⟨present, location, _⟩ := answers
        obtain ⟨others, read, rfl⟩ := tokens_of_cons lexed
        dsimp only at position
        rw [Position.after_append] at position
        have here : token.location.position = cursor.position.after gap := by rw [location]
        have next : token.location.position.Before cursor'.position := by
          rw [position, here]
          exact Position.before_after present
        obtain ⟨behind, ordered⟩ := ih read
        have first : ∀ q : Position, q.Before cursor.position → q.Before token.location.position :=
          fun q before => here ▸ before.after gap
        refine ⟨List.forall_mem_cons.mpr ⟨first, fun t listed q before => ?_⟩,
          .cons (fun t listed => behind t listed _ next) ordered⟩
        exact behind t listed q ((first q before).trans next)

theorem TokenStream.locations_distinct (lexed : (ofSource file source).tokens = .ok ts) :
    (ts.map (·.location)).Nodup :=
  List.pairwise_map.mpr ((read_in_order lexed).2.imp fun before same =>
    before.ne (congrArg Location.position same))

end Order

end ApiSchema

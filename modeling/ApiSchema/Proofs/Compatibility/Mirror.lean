import ApiSchema.Proofs.Compatibility.Directions

/-! Both directions report at the same places. Which versions send and receive decides what is found;
the direction only decides how it is put, and under which meetings it is remembered. -/

namespace ApiSchema

def Direction.opposite : Direction → Direction
  | .toServer => .toClient
  | .toClient => .toServer

def Meeting.turned (m : Meeting) : Meeting := { m with direction := m.direction.opposite }

theorem turned_injective : Function.Injective Meeting.turned := by
  rintro ⟨d, sent, received⟩ ⟨d', sent', received'⟩ same
  cases d <;> cases d' <;> cases same <;> rfl

def Findings.paths (f : Findings) : List String := f.issues.map (·.path)

/-- The same was found in one direction and in the other. -/
structure Mirrors (f g : Findings) : Prop where
  met : g.met = f.met.map Meeting.turned
  paths : g.paths = f.paths

namespace Mirrors

variable {f g f' g' : Findings}

theorem either {p : Prop} [Decidable p] (yes : Mirrors f g) (no : Mirrors f' g') :
    Mirrors (if p then f else f') (if p then g else g') := by
  split
  · exact yes
  · exact no

theorem report (mirrors : Mirrors f g) (path : String) (breakage other : Breakage) :
    Mirrors (f.report path breakage) (g.report path other) where
  met := mirrors.met
  paths := by
    have same := mirrors.paths
    unfold Findings.paths at *
    simp only [Findings.report, List.map_append, List.map_cons, List.map_nil, same]

theorem meet (mirrors : Mirrors f g) (m : Meeting) : Mirrors (f.meet m) (g.meet m.turned) where
  met := by simp only [Findings.meet, List.map_cons, mirrors.met]
  paths := mirrors.paths

theorem contains (mirrors : Mirrors f g) (m : Meeting) :
    g.met.contains m.turned = f.met.contains m := by
  rw [mirrors.met, Bool.eq_iff_iff, List.contains_iff_mem, List.contains_iff_mem]
  exact List.mem_map_of_injective turned_injective

theorem foldl {α : Type} {step other : Findings → α → Findings} {items : List α}
    (each : ∀ a ∈ items, ∀ f g, Mirrors f g → Mirrors (step f a) (other g a))
    (mirrors : Mirrors f g) : Mirrors (items.foldl step f) (items.foldl other g) := by
  induction items generalizing f g with
  | nil => exact mirrors
  | cons a rest ih =>
    exact ih (fun b member => each b (List.mem_cons_of_mem _ member))
      (each a (List.mem_cons_self ..) f g mirrors)

end Mirrors

namespace Transfer

def turned (x : Transfer) : Transfer := { x with direction := x.direction.opposite }

def Mirrored (compare other : Comparison) : Prop :=
  ∀ f g path sent received, Mirrors f g →
    Mirrors (compare f path sent received) (other g path sent received)

variable {x : Transfer} {compare other : Comparison} {f g : Findings}

theorem compare_field_mirrors (mirrored : Mirrored compare other) {path : String}
    {sent : List Field} {received : Field} (mirrors : Mirrors f g) :
    Mirrors (x.compareField compare path sent f received)
      (x.turned.compareField other path sent g received) := by
  unfold compareField
  dsimp only [turned]
  cases lastField? sent received.name with
  | some field => exact mirrored _ _ _ _ _ mirrors
  | none => exact .either mirrors (mirrors.report _ _ _)

theorem compare_structs_mirrors (mirrored : Mirrored compare other) {path : String}
    {sent received : Option StructId} (mirrors : Mirrors f g) :
    Mirrors (x.compareStructs compare f path sent received)
      (x.turned.compareStructs other g path sent received) := by
  unfold compareStructs
  have again := mirrors.contains ⟨x.direction, sent, received⟩
  have met := mirrors.meet ⟨x.direction, sent, received⟩
  dsimp only [turned, Meeting.turned] at again met ⊢
  rw [again]
  split
  · exact mirrors
  · exact .foldl (fun _ _ _ _ => compare_field_mirrors mirrored) met

theorem compare_value_mirrors (mirrored : Mirrored compare other) {path : String}
    {received : List EnumValue} {sent : EnumValue} (mirrors : Mirrors f g) :
    Mirrors (x.compareValue compare path received f sent)
      (x.turned.compareValue other path received g sent) := by
  unfold compareValue
  cases lastValue? received sent.text with
  | some value => exact compare_structs_mirrors mirrored mirrors
  | none => exact mirrors.report _ _ _

theorem compare_bases_mirrors (mirrored : Mirrored compare other) {path : String}
    {sent received : TypeBase} (mirrors : Mirrors f g) :
    Mirrors (x.compareBases compare f path sent received)
      (x.turned.compareBases other g path sent received) := by
  unfold compareBases
  dsimp only [turned]
  split
  · exact compare_structs_mirrors mirrored mirrors
  · exact .foldl (fun _ _ _ _ => compare_value_mirrors mirrored) mirrors
  · exact .either mirrors (mirrors.report _ _ _)
  · exact .either mirrors (mirrors.report _ _ _)

theorem compare_step_mirrors (mirrored : Mirrored compare other) :
    Mirrored (x.compareStep compare) (x.turned.compareStep other) := by
  intro f g path sent received mirrors
  unfold compareStep
  dsimp only [turned]
  split
  · exact mirrored _ _ _ _ _ mirrors
  · exact mirrored _ _ _ _ _ mirrors
  · exact mirrored _ _ _ _ _ (mirrors.report _ _ _)
  · exact mirrored _ _ _ _ _ mirrors
  · exact compare_bases_mirrors mirrored mirrors
  · exact mirrors.report _ _ _

theorem compare_within_mirrors (x : Transfer) (n : Nat) :
    Mirrored (x.compareWithin n) (x.turned.compareWithin n) := by
  induction n with
  | zero => exact fun _ _ _ _ _ mirrors => mirrors
  | succ n ih => exact compare_step_mirrors ih

end Transfer

namespace Compatibility

open Schema Transfer

variable {s t : Schema} {a b : TypeUse}

/-- For any two accepted schemas and any types of them: the check of the older type `a` against the
newer type `b`, for what clients send, reports at the same paths, in the same order, as the check of
the older type `b` against the newer type `a`, for what a server sends. Neither of them is stopped by
a reference, nor goes below its depth. -/
theorem directions_mirror (first : s.Passed) (second : t.Passed) (known : s.Known a.base)
    (known' : t.Known b.base) (path : String) :
    ∃ f g, (∀ bottom n, depth s t a b ≤ n →
        clientToServer s t (total bottom) n {} path a b = .ok f) ∧
      (∀ bottom n, depth t s b a ≤ n →
        serverToClient t s (total bottom) n {} path b a = .ok g) ∧
      f.issues.map (·.path) = g.issues.map (·.path) := by
  have sending := first.navigable
  have receiving := second.navigable
  have mirrors : Mirrors _ _ := compare_within_mirrors (toServer s t) (depth s t a b) {} {} path a b
    ⟨rfl, rfl⟩
  refine ⟨_, _, fun bottom n deep => ?_, fun bottom n deep => ?_, mirrors.paths.symm⟩
  · rw [client_to_server_ok sending.resolved receiving.resolved bottom n _ _ _ _ known known']
    exact congrArg Except.ok
      (compare_down_within (x := toServer s t) sending receiving known known' bottom deep)
  · have from_server := server_to_client_ok receiving.resolved sending.resolved
      (fun f path sent received => bottom f path received sent) n {} path b a known' known
    rw [depth_to_client] at deep
    refine from_server.trans (congrArg Except.ok ?_)
    exact compare_down_within (x := toClient t s) sending receiving known known' _ deep

def trees : String × String :=
  ("type Tree \x7b size: int? rest: Tree[]? \x7d\nfn plant(tree: Tree): Tree",
   "type Tree \x7b size: uint rest: Tree[] kind: string \x7d\nfn plant(tree: Tree): Tree")

theorem trees_mirror : ∃ s t : Schema, s.Analysed ∧ t.Analysed ∧ ∃ d ∈ s.definitions,
    ∃ e ∈ t.definitions, ∃ f g,
      clientToServer s t (total fun f _ _ _ => f) (depth s t d.type e.type) {} "" d.type e.type = .ok f ∧
      serverToClient t s (total fun f _ _ _ => f) (depth t s e.type d.type) {} "" e.type d.type = .ok g ∧
      f.paths = [".size", ".size", ".rest", ".kind"] ∧ g.paths = f.paths := by
  have checked : ((analysed? trees.1).bind fun s => (analysed? trees.2).bind fun t =>
      s.definitions.head?.bind fun d => t.definitions.head?.map fun e =>
        (clientToServer s t (total fun f _ _ _ => f) (depth s t d.type e.type) {} "" d.type
          e.type).toOption.map Findings.paths) = some (some [".size", ".size", ".rest", ".kind"]) := by
    simp only [analysed?, SchemaTree.parse_by_chars]
    decide +kernel
  obtain ⟨s, found, checked⟩ := Option.bind_eq_some_iff.mp checked
  obtain ⟨t, found', checked⟩ := Option.bind_eq_some_iff.mp checked
  obtain ⟨d, first, checked⟩ := Option.bind_eq_some_iff.mp checked
  obtain ⟨e, first', checked⟩ := Option.map_eq_some_iff.mp checked
  have member := List.mem_of_head? first
  have member' := List.mem_of_head? first'
  have older := analysed_of_some found
  have newer := analysed_of_some found'
  obtain ⟨f, g, clients, servers, same⟩ := directions_mirror older.passed newer.passed
    (known_of_declares (.definition member)) (known_of_declares (.definition member')) ""
  have ends := clients (fun f _ _ _ => f) _ (Nat.le_refl _)
  have ends' := servers (fun f _ _ _ => f) _ (Nat.le_refl _)
  rw [ends] at checked
  have paths : f.paths = [".size", ".size", ".rest", ".kind"] := Option.some.inj checked
  exact ⟨s, t, older, newer, d, member, e, member', f, g, ends, ends', paths, same.symm⟩

end Compatibility

end ApiSchema

import StackMips.Proofs.Lowering.Structured
import StackMips.Proofs.Tree.Identifiers

/-!
# Two runs of the generator

Code generation looks at a tree through a few questions only: where a variable lives, whether a type
is a struct, a string or void, which label a function has.  Two runs on trees of the same shape that
get the same answers do the same.  A pairing says in what the two runs may differ: in their symbols,
in their identifiers and in how their lines correspond.  This module shows that the commands of the
generator keep two such runs together.
-/

namespace StackMips

open Mips

def Mips.Operation.region : Operation → Region
  | .align _ | .space _ | .asciiz _ => .data
  | _ => .text

namespace Options

/-- An operation whose comment is dropped when comments are off. -/
def instr (options : Options) (operation : Operation) (comment : String) : Instr :=
  { operation, comment := if options.comments then some comment else none }

def note (options : Options) (text : String) : List Line :=
  if options.comments then [.comment text] else []

end Options

/-- The lines that store a text in the middle of code. -/
def Mips.Line.storingText (label : Label) (text : String) : List Line :=
  [.region .data, .label label (some { operation := .asciiz text }), .region .text]

def Options.globalLines (options : Options) (label : Label) : List Line :=
  [.region .data, .op (options.instr (.align 2) "align on a word boundary"),
    .label label (some { operation := .space wordSize })]

/-- Two runs of the generator side by side. -/
structure Pairing where
  /-- The contexts of the runs; their symbols and options stay. -/
  left : Context
  right : Context
  /-- The identifier that the tree of the right run has in place of one of the left run. -/
  exchange : Ident → Ident
  /-- How the lines of the runs correspond between two declarations. -/
  between : List Line → List Line → Prop
  /-- How they correspond where code is emitted. -/
  inside : List Line → List Line → Prop
  /-- Which faults correspond. -/
  faults : Fault → Fault → Prop
  entryPoint : right.options.entryPoint = left.options.entryPoint
  pos_exchange : ∀ id, (exchange id).pos = id.pos
  faults_refl : ∀ fault, faults fault fault
  faults_exprDepth : ∀ (e : Expr) depth expected,
    faults (.exprDepth e depth expected) (.exprDepth (e.mapIdents exchange) depth expected)
  faults_noAddress : ∀ e : Expr, faults (.noAddress e) (.noAddress (e.mapIdents exchange))
  op : ∀ {a a' o}, inside a a' → o.region = .text →
    inside (a ++ [.op { operation := o }]) (a' ++ [.op { operation := o }])
  opWith : ∀ {a a' o} text, inside a a' → o.region = .text →
    inside (a ++ [.op (left.options.instr o text)]) (a' ++ [.op (right.options.instr o text)])
  note : ∀ {a a'} text, inside a a' →
    inside (a ++ left.options.note text) (a' ++ right.options.note text)
  label : ∀ {a a'} name, inside a a' → inside (a ++ [.label name none]) (a' ++ [.label name none])
  stored : ∀ {a a'} name text, inside a a' →
    inside (a ++ Line.storingText name text) (a' ++ Line.storingText name text)
  enter : ∀ {a a'}, between a a' → inside (a ++ [.region .text]) (a' ++ [.region .text])
  leave : ∀ {a a'}, inside a a' → between a a'
  global : ∀ {a a'} name, between a a' →
    between (a ++ left.options.globalLines name) (a' ++ right.options.globalLines name)

/-- States that two runs reach together, with lines that correspond in a certain way. -/
structure Generator.Alike (p : Pairing) (lines : List Line → List Line → Prop)
    (g g' : Generator) : Prop where
  left : g.context.Like p.left
  right : g'.context.Like p.right
  labels : g'.context.labels = g.context.labels
  strings : g'.context.strings = g.context.strings
  depth : g'.depth = g.depth
  maxDepth : g'.maxDepth = g.maxDepth
  exit : g'.exit = g.exit
  lines : lines g.lines.toList g'.lines.toList

namespace Pairing

variable (p : Pairing)

abbrev Inside (g g' : Generator) : Prop := g.Alike p p.inside g'

abbrev Between (g g' : Generator) : Prop := g.Alike p p.between g'

/-- Results of two runs: the same value in states that correspond, the same construct without code,
or faults that correspond. -/
inductive Agree {α : Type} (R : Generator → Generator → Prop) :
    EStateM.Result Stop Generator α → EStateM.Result Stop Generator α → Prop
  | ok {a g g'} (h : R g g') : Agree R (.ok a g) (.ok a g')
  | unsupported {u g g'} : Agree R (.error (.unsupported u) g) (.error (.unsupported u) g')
  | fault {fault fault' g g'} (h : p.faults fault fault') :
      Agree R (.error (.fault fault) g) (.error (.fault fault') g')

def InStep {α : Type} (R S : Generator → Generator → Prop) (m m' : Gen α) : Prop :=
  ∀ g g', R g g' → p.Agree S (m g) (m' g')

abbrev Paired {α : Type} (m m' : Gen α) : Prop := p.InStep p.Inside p.Inside m m'

/-- Two computations without a state agree, up to a relation between their values. -/
inductive Answers {α : Type} (R : α → α → Prop) : Except Fault α → Except Fault α → Prop
  | ok {a a'} (h : R a a') : Answers R (.ok a) (.ok a')
  | error {fault fault'} (h : p.faults fault fault') : Answers R (.error fault) (.error fault')

variable {p}

theorem Answers.refl {α : Type} {R : α → α → Prop} (hR : ∀ a, R a a) (x : Except Fault α) :
    p.Answers R x x := by
  cases x with
  | error fault => exact .error (p.faults_refl fault)
  | ok a => exact .ok (hR a)

theorem Answers.mono {α : Type} {R S : α → α → Prop} {x x' : Except Fault α}
    (h : p.Answers R x x') (hR : ∀ a a', R a a' → S a a') : p.Answers S x x' := by
  cases h with
  | ok h => exact .ok (hR _ _ h)
  | error h => exact .error h

theorem Agree.mono {α : Type} {R S : Generator → Generator → Prop}
    {result result' : EStateM.Result Stop Generator α} (h : p.Agree R result result')
    (hR : ∀ g g', R g g' → S g g') : p.Agree S result result' := by
  cases h with
  | ok hg => exact .ok (hR _ _ hg)
  | unsupported => exact .unsupported
  | fault h => exact .fault h

/-! ## Sequences -/

namespace InStep

variable {α β : Type} {R S T : Generator → Generator → Prop} {m m' : Gen α} {k k' : α → Gen β}

theorem bind (hm : p.InStep R S m m') (hk : ∀ a, p.InStep S T (k a) (k' a)) :
    p.InStep R T (m >>= k) (m' >>= k') := by
  intro g g' h
  have hagree := hm g g' h
  change p.Agree T (EStateM.bind m k g) (EStateM.bind m' k' g')
  unfold EStateM.bind
  generalize m g = result, m' g' = result' at hagree ⊢
  cases hagree with
  | ok h => exact hk _ _ _ h
  | unsupported => exact .unsupported
  | fault h => exact .fault h

theorem mono (hm : p.InStep R S m m') (h : ∀ g g', S g g' → T g g') : p.InStep R T m m' :=
  fun g g' hg => (hm g g' hg).mono h

theorem pure (a : α) : p.InStep R R (pure a) (pure a) := fun _ _ h => .ok h

protected theorem get {k k' : Generator → Gen β} (h : ∀ g g', R g g' → p.InStep R S (k g) (k' g')) :
    p.InStep R S (MonadState.get >>= k) (MonadState.get >>= k') :=
  fun g g' hg => h g g' hg g g' hg

theorem modify {f f' : Generator → Generator} (h : ∀ g g', R g g' → S (f g) (f' g')) :
    p.InStep R S (modify f) (modify f') :=
  fun g g' hg => .ok (h g g' hg)

theorem fault {fault fault' : Fault} (h : p.faults fault fault') :
    p.InStep R S (Gen.fault fault : Gen α) (Gen.fault fault') :=
  fun _ _ _ => .fault h

theorem unsupported (construct : Construct) (pos : Pos) :
    p.InStep R S (Gen.unsupported construct pos : Gen α) (Gen.unsupported construct pos) :=
  fun _ _ _ => .unsupported

theorem lift {Q : α → α → Prop} {x x' : Except Fault α} (hx : p.Answers Q x x')
    (hk : ∀ a a', Q a a' → p.InStep R S (k a) (k' a')) :
    p.InStep R S ((liftM x : Gen α) >>= k) ((liftM x' : Gen α) >>= k') := by
  cases hx with
  | ok h => exact hk _ _ h
  | error h => exact fun _ _ _ => .fault h

theorem liftM {x x' : Except Fault α} (hx : p.Answers Eq x x') :
    p.InStep R R (liftM x : Gen α) (liftM x') := by
  cases hx with
  | ok h => exact h ▸ fun _ _ hg => .ok hg
  | error h => exact fun _ _ _ => .fault h

theorem ite {c c' : Prop} [Decidable c] [Decidable c'] {n n' : Gen α} (hc : c' ↔ c)
    (hm : p.InStep R S m m') (hn : p.InStep R S n n') :
    p.InStep R S (if c then m else n) (if c' then m' else n') := by
  by_cases h : c
  · rwa [if_pos h, if_pos (hc.mpr h)]
  · rwa [if_neg h, if_neg (mt hc.mp h)]

theorem when {c c' : Prop} [Decidable c] [Decidable c'] {m m' : Gen PUnit} {k k' : PUnit → Gen β}
    (hc : c' ↔ c) (hm : p.InStep R R m m') (hk : p.InStep R S (k ⟨⟩) (k' ⟨⟩)) :
    p.InStep R S (if c then m >>= k else k ⟨⟩) (if c' then m' >>= k' else k' ⟨⟩) :=
  ite hc (hm.bind fun _ => hk) hk

end InStep

/-! ## Lines -/

variable {g g' : Generator} {L L' : List Line → List Line → Prop}

theorem alike_append (h : g.Alike p L g') {a a' : List Line}
    (hlines : L' (g.lines.toList ++ a) (g'.lines.toList ++ a')) :
    Generator.Alike p L' { g with lines := g.lines ++ a } { g' with lines := g'.lines ++ a' } where
  left := h.left
  right := h.right
  labels := h.labels
  strings := h.strings
  depth := h.depth
  maxDepth := h.maxDepth
  exit := h.exit
  lines := by simpa using hlines

theorem emit {line line' : Line} (h : ∀ a a', L a a' → L' (a ++ [line]) (a' ++ [line'])) :
    p.InStep (Generator.Alike p L) (Generator.Alike p L') (Gen.emit line) (Gen.emit line') := by
  intro g g' hg
  have hpush : ∀ (lines : Array Line) (line : Line), lines.push line = lines ++ [line] := by simp
  change p.Agree _ (.ok () { g with lines := g.lines.push line })
    (.ok () { g' with lines := g'.lines.push line' })
  rw [hpush, hpush]
  exact .ok (alike_append hg (h _ _ hg.lines))

theorem paired_op {o : Operation} (h : o.region = .text) : p.Paired (Gen.op o) (Gen.op o) :=
  emit fun _ _ hlines => p.op hlines h

theorem paired_opWith {o : Operation} (text : String) (h : o.region = .text) :
    p.Paired (Gen.opWith o text) (Gen.opWith o text) := by
  apply InStep.get
  intro g g' hg
  rw [hg.left.options, hg.right.options]
  exact emit fun _ _ hlines => p.opWith text hlines h

theorem paired_comment (text : String) : p.Paired (Gen.comment text) (Gen.comment text) := by
  have hrun : ∀ g : Generator, Gen.comment text g =
      .ok () { g with lines := g.lines ++ g.context.options.note text } := by
    intro g
    rw [Gen.comment, Gen.get_bind, Options.note]
    cases g.context.options.comments
    · simp
      rfl
    · simp
      rfl
  intro g g' hg
  rw [hrun, hrun, hg.left.options, hg.right.options]
  exact .ok (alike_append hg (p.note text hg.lines))

theorem paired_defineLabel (label : Label) :
    p.Paired (Gen.defineLabel label) (Gen.defineLabel label) :=
  emit fun _ _ hlines => p.label label hlines

/-! ## The operand stack -/

theorem alike_depth (h : g.Alike p L g') {depth depth' maxDepth maxDepth' : Nat}
    (hdepth : depth' = depth) (hmaxDepth : maxDepth' = maxDepth) :
    Generator.Alike p L { g with depth, maxDepth }
      { g' with depth := depth', maxDepth := maxDepth' } where
  left := h.left
  right := h.right
  labels := h.labels
  strings := h.strings
  depth := hdepth
  maxDepth := hmaxDepth
  exit := h.exit
  lines := h.lines

theorem paired_storeWord (register : Register) :
    p.Paired (Gen.storeWord register) (Gen.storeWord register) := by
  apply InStep.bind (paired_op rfl)
  intro _
  exact paired_op rfl

theorem paired_push (register : Register) : p.Paired (Gen.push register) (Gen.push register) := by
  apply InStep.bind (paired_storeWord register)
  intro _
  apply InStep.modify
  intro g g' hg
  exact alike_depth hg (by rw [hg.depth]) (by rw [hg.depth, hg.maxDepth])

theorem paired_pop (register : Register) : p.Paired (Gen.pop register) (Gen.pop register) := by
  apply InStep.get
  intro g g' hg
  apply InStep.when (by rw [hg.depth]) (.fault (p.faults_refl _))
  apply InStep.bind (paired_op rfl)
  intro _
  apply InStep.bind (paired_op rfl)
  intro _
  apply InStep.modify
  intro g g' hg
  exact alike_depth hg (by rw [hg.depth]) hg.maxDepth

theorem paired_release (words : Nat) : p.Paired (Gen.release words) (Gen.release words) := by
  apply InStep.get
  intro g g' hg
  apply InStep.when (by rw [hg.depth]) (.fault (p.faults_refl _))
  apply InStep.modify
  intro g g' hg
  exact alike_depth hg (by rw [hg.depth]) hg.maxDepth

/-! ## Labels -/

theorem alike_context (h : g.Alike p L g') {labels labels' : Nat} {strings strings' : StringPool}
    (hlabels : labels' = labels) (hstrings : strings' = strings) :
    Generator.Alike p L { g with context := { g.context with labels, strings } }
      { g' with context := { g'.context with labels := labels', strings := strings' } } where
  left := ⟨h.left.symbols, h.left.options⟩
  right := ⟨h.right.symbols, h.right.options⟩
  labels := hlabels
  strings := hstrings
  depth := h.depth
  maxDepth := h.maxDepth
  exit := h.exit
  lines := h.lines

theorem inStep_freshLabel :
    p.InStep (Generator.Alike p L) (Generator.Alike p L) Gen.freshLabel Gen.freshLabel := by
  intro g g' hg
  change p.Agree _
    (.ok (Context.synthetic g.context.labels)
      { g with context := { g.context with labels := g.context.labels + 1 } })
    (.ok (Context.synthetic g'.context.labels)
      { g' with context := { g'.context with labels := g'.context.labels + 1 } })
  rw [hg.labels]
  exact .ok (alike_context hg rfl hg.strings)

theorem isEntryPoint_right {c c' : Context} (h : c.Like p.left) (h' : c'.Like p.right)
    (name : String) : c'.isEntryPoint name = c.isEntryPoint name := by
  rw [Context.isEntryPoint, Context.isEntryPoint, h.options, h'.options, p.entryPoint]

theorem functionLabel_right {c c' : Context} (h : c.Like p.left) (h' : c'.Like p.right)
    (name : String) : c'.functionLabel name = c.functionLabel name := by
  rw [Context.functionLabel, Context.functionLabel, isEntryPoint_right h h']

theorem inStep_functionLabel (name : String) :
    p.InStep (Generator.Alike p L) (Generator.Alike p L) (Gen.functionLabel name)
      (Gen.functionLabel name) := by
  apply InStep.get
  intro g g' hg
  rw [functionLabel_right hg.left hg.right]
  exact .pure _

theorem inStep_exitLabel (name : String) :
    p.InStep (Generator.Alike p L) (Generator.Alike p L) (Gen.exitLabel name)
      (Gen.exitLabel name) := by
  apply InStep.get
  intro g g' hg
  rw [isEntryPoint_right hg.left hg.right]
  apply InStep.ite Iff.rfl
  · exact .pure _
  · exact inStep_freshLabel

/-- A text that is new is stored between two switches of the region, which only together keep the
correspondence. -/
theorem paired_stringLabel (text : String) :
    p.Paired (Gen.stringLabel text) (Gen.stringLabel text) := by
  have hstore : ∀ label : Label, p.Paired (do
      Gen.region .data
      Gen.emit (.label label (some { operation := .asciiz text }))
      Gen.region .text
      return label) (do
      Gen.region .data
      Gen.emit (.label label (some { operation := .asciiz text }))
      Gen.region .text
      return label) := by
    intro label g g' hg
    have hpush : ∀ (lines : Array Line) (a b c : Line),
        ((lines.push a).push b).push c = lines ++ [a, b, c] := by simp
    change p.Agree _ (.ok label { g with lines := ((g.lines.push _).push _).push _ })
      (.ok label { g' with lines := ((g'.lines.push _).push _).push _ })
    rw [hpush, hpush]
    exact .ok (alike_append hg (p.stored label text hg.lines))
  apply InStep.get
  intro g g' hg
  rw [hg.strings]
  cases g.context.strings.lookup text with
  | some label => exact .pure label
  | none =>
      apply InStep.bind inStep_freshLabel
      intro label
      refine InStep.bind (InStep.modify ?_) fun _ => hstore label
      intro g g' hg
      exact alike_context hg hg.labels (by rw [hg.strings])

/-! ## Variables -/

theorem paired_constant (value : Int) : p.Paired (Gen.constant value) (Gen.constant value) := by
  apply InStep.bind (paired_opWith _ rfl)
  intro _
  exact paired_push .t0

theorem paired_string (text : String) : p.Paired (Gen.string text) (Gen.string text) := by
  apply InStep.bind (paired_stringLabel text)
  intro label
  apply InStep.bind (paired_opWith _ rfl)
  intro _
  exact paired_push .t0

section Location

variable {id id' : Ident}
  (h : p.Answers Eq (id.location p.left.symbols) (id'.location p.right.symbols))
include h

theorem paired_location : p.Paired (Gen.location id) (Gen.location id') := by
  apply InStep.get
  intro g g' hg
  rw [hg.left.symbols, hg.right.symbols]
  exact .liftM h

theorem paired_load : p.Paired (Gen.load id) (Gen.load id') := by
  apply InStep.bind (paired_location h)
  intro location
  cases location with
  | frame offset => exact .bind (paired_opWith _ rfl) fun _ => paired_push .t0
  | global label => exact .bind (paired_opWith _ rfl) fun _ => paired_push .t0

theorem paired_loadAddress : p.Paired (Gen.loadAddress id) (Gen.loadAddress id') := by
  apply InStep.bind (paired_location h)
  intro location
  cases location with
  | frame offset => exact .bind (paired_opWith _ rfl) fun _ => paired_push .t0
  | global label => exact .bind (paired_op rfl) fun _ => paired_push .t0

end Location

end Pairing

end StackMips
